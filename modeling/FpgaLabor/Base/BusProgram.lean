import FpgaLabor.Base.Mealy

/-!
# Programs that access a device

A program that accesses a device and goes on with its answers, as a tree. What it does to a device is a run
of the device over the accesses it makes (`run_fst`), so whatever is known about a log of accesses is known
about a program. `forRange` is a counted loop, `mapRange` one that collects what its body returns; a law
about a loop is proved with `run_forRange_induction` or from the equations of one more iteration.
-/

namespace FpgaLabor

/-- A program is done, or makes an access and goes on with the answer. -/
inductive BusProgram (A W α : Type)
  | done (a : α)
  | access (op : A) (next : W → BusProgram A W α)

namespace BusProgram

variable {A W α β σ : Type}

def bind : BusProgram A W α → (α → BusProgram A W β) → BusProgram A W β
  | done a, f => f a
  | access op next, f => access op fun w => (next w).bind f

instance : Monad (BusProgram A W) where
  pure := done
  bind := bind

/-- The access `op`, and what `f` makes of the answer. -/
def ask (op : A) (f : W → α) : BusProgram A W α := access op fun w => done (f w)

/-- `for (i = 0; i < n; i++)`. -/
def forRange (body : ℕ → BusProgram A W Unit) : ℕ → BusProgram A W Unit
  | 0 => done ()
  | n + 1 => do
    forRange body n
    body n

/-- `for (i = 0; i < n; i++)`, with what each iteration returns. -/
def mapRange (body : ℕ → BusProgram A W α) : ℕ → BusProgram A W (List α)
  | 0 => done []
  | n + 1 => do
    let as ← mapRange body n
    let a ← body n
    return as ++ [a]

section Device

variable (dev : σ → A → σ × W)

/-- The device and the result after the program. -/
def run : BusProgram A W α → σ → σ × α
  | done a, s => (s, a)
  | access op next, s => run (next (dev s op).2) (dev s op).1

/-- The accesses that the program makes. -/
def accesses : BusProgram A W α → σ → List A
  | done _, _ => []
  | access op next, s => op :: accesses (next (dev s op).2) (dev s op).1

@[simp] theorem run_pure (a : α) (s : σ) : run dev (pure a : BusProgram A W α) s = (s, a) := rfl

@[simp] theorem run_done (a : α) (s : σ) : run dev (done a : BusProgram A W α) s = (s, a) := rfl

@[simp] theorem run_ask (op : A) (f : W → α) (s : σ) :
    run dev (ask op f) s = ((dev s op).1, f (dev s op).2) := rfl

@[simp] theorem accesses_pure (a : α) (s : σ) : accesses dev (pure a : BusProgram A W α) s = [] := rfl

@[simp] theorem accesses_done (a : α) (s : σ) : accesses dev (done a : BusProgram A W α) s = [] := rfl

@[simp] theorem accesses_ask (op : A) (f : W → α) (s : σ) : accesses dev (ask op f) s = [op] := rfl

@[simp] theorem run_bind (p : BusProgram A W α) (f : α → BusProgram A W β) (s : σ) :
    run dev (p >>= f) s = run dev (f (run dev p s).2) (run dev p s).1 := by
  change run dev (p.bind f) s = _
  induction p generalizing s with
  | done a => rfl
  | access op next ih => exact ih _ _

@[simp] theorem accesses_bind (p : BusProgram A W α) (f : α → BusProgram A W β) (s : σ) :
    accesses dev (p >>= f) s =
      accesses dev p s ++ accesses dev (f (run dev p s).2) (run dev p s).1 := by
  change accesses dev (p.bind f) s = _
  induction p generalizing s with
  | done a => rfl
  | access op next ih => exact congrArg (op :: ·) (ih _ _)

/-- **A program is the log of its accesses.** -/
theorem run_fst (p : BusProgram A W α) (s : σ) :
    (run dev p s).1 = Mealy.runState dev s (accesses dev p s) := by
  induction p generalizing s with
  | done a => rfl
  | access op next ih => exact ih _ _

theorem run_forRange_induction (body : ℕ → BusProgram A W Unit) {P : ℕ → σ → Prop} {s : σ} (h0 : P 0 s)
    (n : ℕ) (hbody : ∀ i < n, ∀ t, P i t → P (i + 1) (run dev (body i) t).1) :
    P n (run dev (forRange body n) s).1 := by
  induction n with
  | zero => exact h0
  | succ n ih =>
    have hn := ih fun i hi => hbody i (Nat.lt_succ_of_lt hi)
    have hlast := hbody n (Nat.lt_succ_self n) _ hn
    rwa [forRange, run_bind]

theorem accesses_forRange (body : ℕ → BusProgram A W Unit) (ops : ℕ → List A)
    (hbody : ∀ i t, accesses dev (body i) t = ops i) (n : ℕ) (s : σ) :
    accesses dev (forRange body n) s = (List.range n).flatMap ops := by
  induction n with
  | zero => rfl
  | succ n ih => rw [forRange, accesses_bind, ih, hbody, List.range_succ, List.flatMap_append,
      List.flatMap_singleton]

theorem run_mapRange (body : ℕ → BusProgram A W α) {f : ℕ → α} {s : σ} (n : ℕ)
    (hbody : ∀ i < n, run dev (body i) s = (s, f i)) :
    run dev (mapRange body n) s = (s, (List.range n).map f) := by
  induction n with
  | zero => rfl
  | succ n ih =>
    have hn := ih fun i hi => hbody i (Nat.lt_succ_of_lt hi)
    simp [mapRange, hn, hbody n (Nat.lt_succ_self n), List.range_succ]

end Device

end BusProgram

end FpgaLabor
