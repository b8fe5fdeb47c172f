import RootComplex.Proofs.Path

/-! # Spending

Every command has a price, and a path costs what its commands cost together. A bound on what
a program spends holds on every path, so it holds whatever the platform answers. -/

namespace RootComplex

/-- The price of a command in time. -/
def Command.stallTime : Command → Duration
  | .stall t => t
  | _ => 0

/-- The price of a command in register accesses. -/
def Command.accessCount : Command → Nat
  | .read _ => 1
  | .write _ _ => 1
  | _ => 0

namespace Path

variable {price : Command → Nat}

def cost (price : Command → Nat) : List Exchange → Nat
  | [] => 0
  | e :: path => price e.command + cost price path

theorem cost_append (front back : List Exchange) :
    cost price (front ++ back) = cost price front + cost price back := by
  induction front with
  | nil => simp [cost]
  | cons e front ih => simp [cost, ih, Nat.add_assoc]

/-- Equal bounds on the parts add up. -/
theorem cost_flatten_le {parts : List (List Exchange)} {most : Nat}
    (h : ∀ part ∈ parts, cost price part ≤ most) :
    cost price parts.flatten ≤ parts.length * most := by
  induction parts with
  | nil => exact Nat.zero_le _
  | cons part rest ih =>
    obtain ⟨first, others⟩ := List.forall_mem_cons.mp h
    rw [List.flatten_cons, cost_append, List.length_cons, Nat.succ_mul, Nat.add_comm]
    exact Nat.add_le_add (ih others) first

/-- Commands that cost nothing make no difference. -/
theorem cost_filter {keep : Exchange → Bool} (h : ∀ e, keep e = false → price e.command = 0)
    (path : List Exchange) : cost price (path.filter keep) = cost price path := by
  induction path with
  | nil => rfl
  | cons e path ih =>
    cases he : keep e with
    | true => simp [he, cost, ih]
    | false => simp [he, cost, ih, h e he]

end Path

namespace Program

variable {α β : Type} {price : Command → Nat} {m n : Nat} {p : Program α}

/-- No path of the program costs more. -/
def Spends (price : Command → Nat) (most : Nat) (p : Program α) : Prop :=
  ∀ path a, Runs p path a → Path.cost price path ≤ most

namespace Spends

theorem mono (h : p.Spends price m) (hmn : m ≤ n) : p.Spends price n :=
  fun path a hr => Nat.le_trans (h path a hr) hmn

theorem done (a : α) : (Program.done a).Spends price n := by
  intro path b h
  obtain ⟨rfl, -⟩ := runs_done.mp h
  exact Nat.zero_le n

theorem step {c : Command} {next : c.Answer → Program α}
    (hn : ∀ answer, (next answer).Spends price n) :
    (Program.step c next).Spends price (price c + n) := by
  intro path a h
  obtain ⟨answer, rest, rfl, hr⟩ := runs_step.mp h
  exact Nat.add_le_add_left (hn answer rest a hr) (price c)

/-- The second part may rely on what the first part can return. -/
theorem bind_of {f : α → Program β} (hp : p.Spends price m)
    (hf : ∀ a path, Runs p path a → (f a).Spends price n) :
    (p >>= f).Spends price (m + n) := by
  intro path b h
  obtain ⟨a, front, back, hfront, hback, rfl⟩ := h.bind
  rw [Path.cost_append]
  exact Nat.add_le_add (hp front a hfront) (hf a front hfront back b hback)

theorem bind {f : α → Program β} (hp : p.Spends price m) (hf : ∀ a, (f a).Spends price n) :
    (p >>= f).Spends price (m + n) :=
  hp.bind_of fun a _ _ => hf a

/-- A part that costs nothing may come first. -/
theorem free_bind {f : α → Program β} (hp : p.Spends price 0)
    (hf : ∀ a, (f a).Spends price n) : (p >>= f).Spends price n :=
  (hp.bind hf).mono (Nat.le_of_eq (Nat.zero_add n))

/-- A part that costs nothing may come last. -/
theorem bind_free {f : α → Program β} (hp : p.Spends price n)
    (hf : ∀ a, (f a).Spends price 0) : (p >>= f).Spends price n :=
  hp.bind hf

theorem command (c : Command) : (Program.step c .done).Spends price (price c) :=
  step (n := 0) fun answer => done answer

theorem modify (a : Address) (f : Word → Word) (h : ∀ v, price (.write a v) ≤ n) :
    (Program.modify a f).Spends price (price (.read a) + n) :=
  (command (.read a)).bind fun v => (command (.write a (f v))).mono (h (f v))

end Spends

end Program

end RootComplex
