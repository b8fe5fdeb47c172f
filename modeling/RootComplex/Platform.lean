import RootComplex.Program

/-! Platforms answer programs. A platform is a state and a rule that answers one
command; running a program threads the state through its path. The relation `Runs`
describes the paths themselves, without any platform. -/

namespace RootComplex

/-- A rule that answers each command and moves the state on. -/
structure Platform (σ : Type) where
  answer : (c : Command) → σ → c.Answer × σ

structure Exchange where
  command : Command
  answer : command.Answer

namespace Program

variable {α β σ : Type}

def run (platform : Platform σ) : Program α → σ → α × σ
  | done a, s => (a, s)
  | step c next, s =>
    match platform.answer c s with
    | (answer, s) => (next answer).run platform s

@[simp] theorem run_done (platform : Platform σ) (a : α) (s : σ) :
    (done a).run platform s = (a, s) := rfl

theorem run_bind (platform : Platform σ) (p : Program α) (f : α → Program β) (s : σ) :
    (p >>= f).run platform s =
      (f (p.run platform s).1).run platform (p.run platform s).2 := by
  induction p generalizing s with
  | done a => rfl
  | step c next ih => exact ih _ _

def exchanges (platform : Platform σ) : Program α → σ → List Exchange
  | done _, _ => []
  | step c next, s =>
    match platform.answer c s with
    | (answer, s) => ⟨c, answer⟩ :: (next answer).exchanges platform s

/-- `Runs p path a` holds when `path` answers every command of `p` up to result `a`. -/
inductive Runs : Program α → List Exchange → α → Prop where
  | done (a : α) : Runs (done a) [] a
  | step (c : Command) (next : c.Answer → Program α) (answer : c.Answer)
      {path : List Exchange} {a : α} (rest : Runs (next answer) path a) :
      Runs (step c next) (⟨c, answer⟩ :: path) a

/-- What a platform does is one of the paths. -/
theorem runs_exchanges (platform : Platform σ) (p : Program α) (s : σ) :
    Runs p (p.exchanges platform s) (p.run platform s).1 := by
  induction p generalizing s with
  | done a => exact .done a
  | step c next ih => exact .step c next _ (ih _ _)

/-- A path through a sequence is a path through each part. -/
theorem runs_bind {p : Program α} {f : α → Program β} {path : List Exchange} {b : β} :
    Runs (p >>= f) path b ↔
      ∃ a front back, Runs p front a ∧ Runs (f a) back b ∧ path = front ++ back := by
  constructor
  · intro h
    induction p generalizing path with
    | done a => exact ⟨a, [], path, .done a, h, rfl⟩
    | step c next ih =>
      cases h with
      | step _ _ answer rest =>
        obtain ⟨a, front, back, hf, hb, rfl⟩ := ih answer rest
        exact ⟨a, ⟨c, answer⟩ :: front, back, .step c next answer hf, hb, rfl⟩
  · rintro ⟨a, front, back, hf, hb, rfl⟩
    induction hf with
    | done a => exact hb
    | step c next answer rest ih => exact .step c _ answer (ih hb)

end Program

end RootComplex
