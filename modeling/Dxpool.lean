import Dxpool.Indexer.Counters
import Dxpool.Indexer.Empty
import Dxpool.Indexer.Progress
import Dxpool.Indexer.Quiet
import Dxpool.Indexer.Sizes
import Dxpool.Pool.Sequential
import Dxpool.Simple.Multi
import Dxpool.Simple.Usage
import Dxpool.Simple.Peak
import Dxpool.Simple.Progress
import Dxpool.Simple.Lifo
import Dxpool.Simple.Calm
import Dxpool.Simple.Demand
import Dxpool.Simple.Survive
import Dxpool.Simple.Teardown
import Dxpool.Simple.Global
import Dxpool.Simple.Locked
import Dxpool.Pool.Reset
import Dxpool.Pool.Concurrent
import Dxpool.Workers.Order
import Dxpool.Workers.Rest
import Dxpool.Workers.Futures
import Dxpool.Workers.Builder
import Dxpool.Processor.Numa
import Dxpool.Workers.Placement
import Dxpool.Indexer.Consumers
