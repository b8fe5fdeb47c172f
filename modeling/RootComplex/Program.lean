import RootComplex.Event

/-! Programs over a device platform. A program is a finite tree: each step asks the
platform for one thing and continues with its answer, whatever that is. Statements
about every platform are statements about every path through the tree. -/

namespace RootComplex

inductive Command where
  | read (address : Address)
  | write (address : Address) (value : Word)
  /-- Orders all earlier writes before all later ones. -/
  | barrier
  | stall (time : Duration)
  /-- Asks whether anyone listens to events of this level. -/
  | listens (level : Level)
  | report (event : Event)
  deriving DecidableEq, Repr

namespace Command

@[reducible] def Answer : Command → Type
  | read _ => Word
  | write _ _ => Unit
  | barrier => Unit
  | stall _ => Unit
  | listens _ => Bool
  | report _ => Unit

end Command

/-- Every path is finite, since the tree is well founded. -/
inductive Program (α : Type) where
  | done (result : α)
  | step (command : Command) (next : command.Answer → Program α)

namespace Program

variable {α β γ : Type}

def bind : Program α → (α → Program β) → Program β
  | done a, f => f a
  | step c next, f => step c fun answer => (next answer).bind f

instance : Monad Program where
  pure := done
  bind := bind

@[simp] theorem pure_eq (a : α) : (pure a : Program α) = done a := rfl

@[simp] theorem done_bind (a : α) (f : α → Program β) : done a >>= f = f a := rfl

@[simp] theorem step_bind (c : Command) (next : c.Answer → Program α) (f : α → Program β) :
    step c next >>= f = step c fun answer => next answer >>= f := rfl

theorem bind_done (p : Program α) : p >>= done = p := by
  induction p with
  | done a => rfl
  | step c next ih => simp [ih]

theorem bind_assoc (p : Program α) (f : α → Program β) (g : β → Program γ) :
    p >>= f >>= g = p >>= fun a => f a >>= g := by
  induction p with
  | done a => rfl
  | step c next ih => simp [ih]

instance : LawfulMonad Program :=
  LawfulMonad.mk' Program bind_done (fun _ _ => rfl) bind_assoc

def read (address : Address) : Program Word := step (.read address) done

def write (address : Address) (value : Word) : Program Unit := step (.write address value) done

/-- Reads a register and writes back what `f` makes of it. -/
def modify (address : Address) (f : Word → Word) : Program Unit := do
  let value ← read address
  write address (f value)

def barrier : Program Unit := step .barrier done

def stall (time : Duration) : Program Unit := step (.stall time) done

def listens (level : Level) : Program Bool := step (.listens level) done

def report (event : Event) : Program Unit := step (.report event) done

end Program

end RootComplex
