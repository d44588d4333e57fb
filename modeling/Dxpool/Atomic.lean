/-
Shared objects whose operations take effect atomically: each at one moment
between its call and its answer. The histories of calls and answers that such
an object allows (`Atomic`) are the linearizable ones; an implementation is
linearizable when its runs have such histories only.
-/
import Mathlib.Logic.Function.Basic

namespace Dxpool

/-- An object: how an operation changes its state and what it results in, and
which answers a result allows. -/
structure Object (σ Op Res Ans : Type) where
  start : σ
  effect : σ → Op → σ × Res
  answers : Res → Ans → Prop

/-- A client of an object: between operations, or with one called and not yet
in effect, or in effect and not yet answered. -/
inductive Phase (Op Res : Type)
  | idle
  | called (op : Op)
  | done (res : Res)

/-- What a client can observe. -/
inductive Event (T Op Ans : Type)
  | call (t : T) (op : Op)
  | answer (t : T) (ans : Ans)
  deriving DecidableEq, Repr

/-- A history of the object, with the state and the clients' phases after it. -/
inductive Atomic {σ Op Res Ans T : Type} [DecidableEq T] (o : Object σ Op Res Ans) :
    List (Event T Op Ans) → σ → (T → Phase Op Res) → Prop
  | start : Atomic o [] o.start fun _ => .idle
  | call {H x ph} (t : T) (op : Op) : Atomic o H x ph → ph t = .idle →
      Atomic o (H ++ [.call t op]) x (Function.update ph t (.called op))
  | effect {H x ph} (t : T) (op : Op) : Atomic o H x ph → ph t = .called op →
      Atomic o H (o.effect x op).1 (Function.update ph t (.done (o.effect x op).2))
  | answer {H x ph} (t : T) (res : Res) (ans : Ans) : Atomic o H x ph → ph t = .done res → o.answers res ans →
      Atomic o (H ++ [.answer t ans]) x (Function.update ph t .idle)

/-! ## Stacks -/

namespace Stack

inductive Op (α : Type)
  | push (x : α)
  | pop
  deriving DecidableEq, Repr

/-- `fresh`: a pop found the stack empty. -/
inductive Res (α : Type)
  | pushed
  | popped (x : α)
  | fresh
  deriving DecidableEq, Repr

inductive Ans (α : Type)
  | done
  | item (x : α)
  | made (x : α)
  deriving DecidableEq, Repr

def effect {α : Type} : List α → Op α → List α × Res α
  | l, .push x => (x :: l, .pushed)
  | [], .pop => ([], .fresh)
  | x :: l, .pop => (l, .popped x)

/-- A pop is answered what it popped; one that found the stack empty is
answered something made for it. -/
def answers {α : Type} : Res α → Ans α → Prop
  | .pushed, ans => ans = .done
  | .popped x, ans => ans = .item x
  | .fresh, ans => ∃ x, ans = .made x

/-- A stack that makes items when it has none. -/
def object (α : Type) : Object (List α) (Op α) (Res α) (Ans α) := ⟨[], effect, answers⟩

end Stack

end Dxpool
