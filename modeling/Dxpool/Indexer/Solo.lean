/-
A call of `Next` or `Return` on a `ConcurrentIndexer` that nobody else steps:
every indexer and every stage it can come to (`NextAlone`, `ReturnAlone`).
`Next` loads the slot again that its check found used. `Return` comes to an
end if it finds the slot of its position unused: it alone would wait for
another call to clear it.
-/
import Dxpool.Alone
import Dxpool.Indexer.Construct

namespace Dxpool.Indexer

open ConcurrentIndexer

/-- A call run alone: the indexer, where it stands, and the holder it answered. -/
structure Call where
  indexer : ConcurrentIndexer
  pc : Pc
  answer : Option IndexHolder := none

/-- The next atomic operation of the call. -/
def Call.advance (bits : Nat) (spurious : Bool) (x : Call) : Call :=
  let (indexer, pc, answer) := Indexer.advance bits x.indexer spurious x.pc
  { indexer, pc, answer }

def Call.returned (x : Call) : Bool := decide (x.pc = .idle)

/-! ## `Next` -/

/-- The indexer as a `Next` reads it: `readPos` may have been set back. -/
def ReadFrom (ix₀ ix : ConcurrentIndexer) : Prop :=
  ix = ix₀ ∨ ix₀.readPos = ix₀.maxPositionSize ∧ ix = { ix₀ with readPos := 0 }

/-- The indexer with one more position claimed by `Next`. -/
def claimRead (bits : Nat) (ix : ConcurrentIndexer) : ConcurrentIndexer :=
  { ix with readPos := (ix.readPos + 1) % 2 ^ bits }

/-- What a `Next` finds that answers with an index. -/
structure Readable (ix : ConcurrentIndexer) : Prop where
  below : ix.readPos ≠ ix.maxPositionSize
  more : ix.readPos ≠ ix.writePos
  used : ix.load (ix.readPos % ix.size) ≠ 0

/-- What a `Next` can come to that started on `ix₀`. -/
inductive NextAlone (bits : Nat) (ix₀ : ConcurrentIndexer) : Call → Prop
  | loadRead {ix} : ReadFrom ix₀ ix → NextAlone bits ix₀ ⟨ix, .nextLoadRead, none⟩
  | wrapLoad : ix₀.readPos = ix₀.maxPositionSize → NextAlone bits ix₀ ⟨ix₀, .nextWrapLoad, none⟩
  | wrapCas : ix₀.readPos = ix₀.maxPositionSize → NextAlone bits ix₀ ⟨ix₀, .nextWrapCas, none⟩
  | loadWrite {ix} : ReadFrom ix₀ ix → ix.readPos ≠ ix.maxPositionSize →
      NextAlone bits ix₀ ⟨ix, .nextLoadWrite ix.readPos, none⟩
  | checkSlot {ix} : ReadFrom ix₀ ix → ix.readPos ≠ ix.maxPositionSize → ix.readPos ≠ ix.writePos →
      NextAlone bits ix₀ ⟨ix, .nextCheckSlot ix.readPos, none⟩
  | cas {ix} : ReadFrom ix₀ ix → Readable ix → NextAlone bits ix₀ ⟨ix, .nextCas ix.readPos, none⟩
  | loadSlot {ix} : ReadFrom ix₀ ix → Readable ix →
      NextAlone bits ix₀ ⟨claimRead bits ix, .nextLoadSlot ix.readPos, none⟩
  | clear {ix} : ReadFrom ix₀ ix → Readable ix → NextAlone bits ix₀
      ⟨claimRead bits ix, .nextClear ix.readPos (ix.load (ix.readPos % ix.size)), none⟩
  | empty {ix} : ReadFrom ix₀ ix → ix.readPos ≠ ix.maxPositionSize → ¬Readable ix →
      NextAlone bits ix₀ ⟨ix, .idle, some {}⟩
  | taken {ix} : ReadFrom ix₀ ix → Readable ix → NextAlone bits ix₀
      ⟨(claimRead bits ix).store (ix.readPos % ix.size) 0, .idle,
        some (.of (ix.load (ix.readPos % ix.size) - 1))⟩

/-- How many operations a `Next` that does not fail has left, at most. -/
def nextLeft (x : Call) : Nat :=
  match x.pc with
  | .nextLoadRead => if x.indexer.readPos = x.indexer.maxPositionSize then 9 else 6
  | .nextWrapLoad => 8
  | .nextWrapCas => 7
  | .nextLoadWrite _ => 5
  | .nextCheckSlot _ => 4
  | .nextCas _ => 3
  | .nextLoadSlot _ => 2
  | .nextClear _ _ => 1
  | _ => 0

theorem next_progress {bits : Nat} {ix₀ : ConcurrentIndexer} (hmax : 0 < ix₀.maxPositionSize) :
    Progress (Call.advance bits) Call.returned (NextAlone bits ix₀) nextLeft where
  keep := by
    intro x b hx hs
    cases hx with
    | @loadRead ix hix =>
      simp only [Call.advance, Indexer.advance]
      by_cases hm : ix.readPos = ix.maxPositionSize
      · rw [if_pos hm]
        rcases hix with rfl | ⟨-, rfl⟩
        · exact .wrapLoad hm
        · simp only at hm; omega
      · rw [if_neg hm]; exact .loadWrite hix hm
    | wrapLoad hm => simp only [Call.advance, Indexer.advance, if_pos hm]; exact .wrapCas hm
    | wrapCas hm =>
      simp only [Call.advance, Indexer.advance]
      split
      · exact .loadRead (.inr ⟨hm, rfl⟩)
      · exact .wrapLoad hm
    | @loadWrite ix hix hm =>
      simp only [Call.advance, Indexer.advance]
      split
      · rename_i he; exact .empty hix hm fun h => h.more he
      · rename_i hne; exact .checkSlot hix hm hne
    | @checkSlot ix hix hm hne =>
      simp only [Call.advance, Indexer.advance]
      split
      · rename_i h0; exact .empty hix hm fun h => h.used h0
      · rename_i hu; exact .cas hix ⟨hm, hne, hu⟩
    | cas hix hr =>
      simp only [Call.advance, Indexer.advance]
      split
      · exact .loadSlot hix hr
      · exact .loadRead hix
    | @loadSlot ix hix hr =>
      have hused : (claimRead bits ix).load (ix.readPos % (claimRead bits ix).size) ≠ 0 := hr.used
      simp only [Call.advance, Indexer.advance, if_neg hused]
      exact .clear hix hr
    | clear hix hr => exact .taken hix hr
    | empty => cases hs
    | taken => cases hs
  fall := by
    intro x hx hs
    cases hx with
    | @loadRead ix hix =>
      simp only [Call.advance, Indexer.advance]
      by_cases hm : ix.readPos = ix.maxPositionSize <;> simp [nextLeft, hm]
    | wrapLoad hm => simp [Call.advance, Indexer.advance, hm, nextLeft]
    | wrapCas hm =>
      have hne : ¬0 = ix₀.maxPositionSize := by omega
      simp [Call.advance, Indexer.advance, hm, nextLeft, hne]
    | loadWrite => simp only [Call.advance, Indexer.advance]; split <;> simp [nextLeft]
    | checkSlot => simp only [Call.advance, Indexer.advance]; split <;> simp [nextLeft]
    | cas hix hr => simp [Call.advance, Indexer.advance, nextLeft]
    | @loadSlot ix hix hr =>
      have hused : (claimRead bits ix).load (ix.readPos % (claimRead bits ix).size) ≠ 0 := hr.used
      simp only [Call.advance, Indexer.advance, if_neg hused]
      simp [nextLeft]
    | clear hix hr => simp [Call.advance, Indexer.advance, nextLeft]
    | empty => cases hs
    | taken => cases hs

theorem nextLeft_le (x : Call) : nextLeft x ≤ 9 := by
  unfold nextLeft
  split <;> (try split) <;> omega

/-! ## `Return` -/

/-- The indexer as a `Return` claims from it: `writePos` may have been set back. -/
def WriteFrom (ix₀ ix : ConcurrentIndexer) : Prop :=
  ix = ix₀ ∨ ix₀.writePos = ix₀.maxPositionSize ∧ ix = { ix₀ with writePos := 0 }

/-- The indexer with one more position claimed by `Return`. -/
def claimWrite (bits : Nat) (ix : ConcurrentIndexer) : ConcurrentIndexer :=
  { ix with writePos := (ix.writePos + 1) % 2 ^ bits }

/-- What a `Return` of index `i` can come to that started on `ix₀`. -/
inductive ReturnAlone (bits i : Nat) (ix₀ : ConcurrentIndexer) : Call → Prop
  | loadWrite {ix} : WriteFrom ix₀ ix → ReturnAlone bits i ix₀ ⟨ix, .returnLoadWrite i, none⟩
  | wrapLoad : ix₀.writePos = ix₀.maxPositionSize → ReturnAlone bits i ix₀ ⟨ix₀, .returnWrapLoad i, none⟩
  | wrapCas : ix₀.writePos = ix₀.maxPositionSize → ReturnAlone bits i ix₀ ⟨ix₀, .returnWrapCas i, none⟩
  | cas {ix} : WriteFrom ix₀ ix → ix.writePos ≠ ix.maxPositionSize →
      ReturnAlone bits i ix₀ ⟨ix, .returnCas i ix.writePos, none⟩
  | loadSlot {ix} : WriteFrom ix₀ ix → ix.writePos ≠ ix.maxPositionSize →
      ReturnAlone bits i ix₀ ⟨claimWrite bits ix, .returnLoadSlot i ix.writePos, none⟩
  | fill {ix} : WriteFrom ix₀ ix → ix.writePos ≠ ix.maxPositionSize →
      ReturnAlone bits i ix₀ ⟨claimWrite bits ix, .returnFill i ix.writePos, none⟩
  | done {ix} : WriteFrom ix₀ ix → ix.writePos ≠ ix.maxPositionSize →
      ReturnAlone bits i ix₀
        ⟨(claimWrite bits ix).store (ix.writePos % ix.size) ((i + 1) % 2 ^ bits), .idle, none⟩

/-- How many operations a `Return` that does not fail has left, at most. -/
def returnLeft (x : Call) : Nat :=
  match x.pc with
  | .returnLoadWrite _ => if x.indexer.writePos = x.indexer.maxPositionSize then 7 else 4
  | .returnWrapLoad _ => 6
  | .returnWrapCas _ => 5
  | .returnCas _ _ => 3
  | .returnLoadSlot _ _ => 2
  | .returnFill _ _ => 1
  | _ => 0

/-- Setting the counter back leaves its slot the same. -/
theorem WriteFrom.unused {ix₀ ix : ConcurrentIndexer} (h : WriteFrom ix₀ ix) (hd : ix₀.size ∣ ix₀.maxPositionSize)
    (h0 : ix₀.load (ix₀.writePos % ix₀.size) = 0) : ix.load (ix.writePos % ix.size) = 0 := by
  rcases h with rfl | ⟨hm, rfl⟩
  · exact h0
  · rw [hm, Nat.mod_eq_zero_of_dvd hd] at h0
    simpa [load] using h0

theorem return_progress {bits i : Nat} {ix₀ : ConcurrentIndexer} (hmax : 0 < ix₀.maxPositionSize)
    (hd : ix₀.size ∣ ix₀.maxPositionSize) (h0 : ix₀.load (ix₀.writePos % ix₀.size) = 0) :
    Progress (Call.advance bits) Call.returned (ReturnAlone bits i ix₀) returnLeft where
  keep := by
    intro x b hx hs
    cases hx with
    | @loadWrite ix hix =>
      simp only [Call.advance, Indexer.advance]
      by_cases hm : ix.writePos = ix.maxPositionSize
      · rw [if_pos hm]
        rcases hix with rfl | ⟨-, rfl⟩
        · exact .wrapLoad hm
        · simp only at hm; omega
      · rw [if_neg hm]; exact .cas hix hm
    | wrapLoad hm => simp only [Call.advance, Indexer.advance, if_pos hm]; exact .wrapCas hm
    | wrapCas hm =>
      simp only [Call.advance, Indexer.advance]
      split
      · exact .loadWrite (.inr ⟨hm, rfl⟩)
      · exact .wrapLoad hm
    | cas hix hm =>
      simp only [Call.advance, Indexer.advance]
      split
      · exact .loadSlot hix hm
      · exact .loadWrite hix
    | @loadSlot ix hix hm =>
      have hunused : (claimWrite bits ix).load (ix.writePos % (claimWrite bits ix).size) = 0 := hix.unused hd h0
      simp only [Call.advance, Indexer.advance, if_pos hunused]
      exact .fill hix hm
    | fill hix hm => exact .done hix hm
    | done => cases hs
  fall := by
    intro x hx hs
    cases hx with
    | @loadWrite ix hix =>
      simp only [Call.advance, Indexer.advance]
      by_cases hm : ix.writePos = ix.maxPositionSize <;> simp [returnLeft, hm]
    | wrapLoad hm => simp [Call.advance, Indexer.advance, hm, returnLeft]
    | wrapCas hm =>
      have hne : ¬0 = ix₀.maxPositionSize := by omega
      simp [Call.advance, Indexer.advance, hm, returnLeft, hne]
    | cas hix hm => simp [Call.advance, Indexer.advance, returnLeft]
    | @loadSlot ix hix hm =>
      have hunused : (claimWrite bits ix).load (ix.writePos % (claimWrite bits ix).size) = 0 := hix.unused hd h0
      simp only [Call.advance, Indexer.advance, if_pos hunused]
      simp [returnLeft]
    | fill hix hm => simp [Call.advance, Indexer.advance, returnLeft]
    | done => cases hs

theorem returnLeft_le (x : Call) : returnLeft x ≤ 9 := by
  unfold returnLeft
  split <;> (try split) <;> omega

end Dxpool.Indexer
