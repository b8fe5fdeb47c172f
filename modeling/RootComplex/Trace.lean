import RootComplex.Word

/-! Traces of register traffic. A trace is the list of accesses in order; its digest
cuts it after every write, counts the reads between, and folds repeated segments. -/

namespace RootComplex

inductive Access where
  | read (address : Address)
  | write (address : Address) (value : Word)
  | barrier
  | stall (time : Duration)
  deriving DecidableEq, Repr

/-- The accesses up to a write, or up to the end of the trace. -/
structure Segment where
  /-- Every address read, in order of its first read, with the number of reads. -/
  reads : List (Address × Nat)
  stalled : Duration
  barriers : Nat
  write : Option (Address × Word)
  deriving DecidableEq, Repr

namespace Segment

def empty : Segment := ⟨[], 0, 0, none⟩

def countRead (a : Address) : List (Address × Nat) → List (Address × Nat)
  | [] => [(a, 1)]
  | (b, n) :: rest => if a = b then (b, n + 1) :: rest else (b, n) :: countRead a rest

end Segment

namespace Trace

/-- Cuts a trace after every write; `current` is the segment that is being filled. A
wait of no time leaves nothing behind. -/
def segmentsFrom (current : Segment) : List Access → List Segment
  | [] => if current = .empty then [] else [current]
  | .read a :: rest =>
    segmentsFrom { current with reads := Segment.countRead a current.reads } rest
  | .stall t :: rest => segmentsFrom { current with stalled := current.stalled + t } rest
  | .barrier :: rest => segmentsFrom { current with barriers := current.barriers + 1 } rest
  | .write a v :: rest => { current with write := some (a, v) } :: segmentsFrom .empty rest

def segments (trace : List Access) : List Segment := segmentsFrom .empty trace

/-- Folds equal neighbours into one with their number. -/
def fold {α : Type} [DecidableEq α] : List α → List (α × Nat)
  | [] => []
  | a :: rest =>
    match fold rest with
    | (b, n) :: tail => if a = b then (b, n + 1) :: tail else (a, 1) :: (b, n) :: tail
    | [] => [(a, 1)]

/-- Unfolding gives the list back, so folding loses nothing. -/
theorem flatMap_replicate_fold {α : Type} [DecidableEq α] (l : List α) :
    (fold l).flatMap (fun p => List.replicate p.2 p.1) = l := by
  induction l with
  | nil => rfl
  | cons a rest ih =>
    unfold fold
    split
    · rename_i b n tail h
      rw [h] at ih
      by_cases hab : a = b
      · subst hab
        simpa [List.replicate_succ] using ih
      · simpa [hab] using ih
    · rename_i h
      rw [h] at ih
      simpa using ih

def digest (trace : List Access) : List (Segment × Nat) := fold (segments trace)

end Trace

end RootComplex
