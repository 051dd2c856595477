import Armator.Lib.Run

/-!
# Threads that share a state under one lock

Each thread has a state of its own, and there is one state that they share.  A thread
touches the shared state only in its sections, between the moment at which it takes the
lock and the one at which it gives it back; everything else that it does concerns its own
state.  The steps of the threads come in any order.

Whatever the order, the sections could as well have been run one after the other, without
a step of another thread between the steps of a section (`serialised_of_reaches`).  What
such serial steps keep is therefore the business of sequential reasoning.  Where no thread
can take a step, each one of them is at its end or has failed (`Stuck`).

A section is often given as a program of atomic steps (`Prog`).
-/

namespace Locking

open Relation (ReflTransGen)
open Function (update)

variable {ι σ ε : Type*} {τ : ι → Type*}

structure System (ι σ : Type*) (τ : ι → Type*) where
  /-- A step outside the sections. -/
  own : (i : ι) → τ i → τ i → Prop
  /-- What taking the lock does to the thread. -/
  enter : (i : ι) → τ i → τ i → Prop
  /-- A step of a section. -/
  inside : (i : ι) → σ × τ i → σ × τ i → Prop
  /-- What giving the lock back does to the thread. -/
  leave : (i : ι) → τ i → τ i → Prop

structure Config (ι σ : Type*) (τ : ι → Type*) where
  shared : σ
  threads : (i : ι) → τ i
  holder : Option ι

variable [DecidableEq ι] {S : System ι σ τ}

inductive System.Step (S : System ι σ τ) : Config ι σ τ → Config ι σ τ → Prop
  | own {s : σ} {ts : (i : ι) → τ i} {holder : Option ι} {i : ι} {t : τ i}
    (hi : holder ≠ some i) (h : S.own i (ts i) t) : S.Step ⟨s, ts, holder⟩ ⟨s, update ts i t, holder⟩
  | enter {s : σ} {ts : (i : ι) → τ i} {i : ι} {t : τ i} (h : S.enter i (ts i) t) :
    S.Step ⟨s, ts, none⟩ ⟨s, update ts i t, some i⟩
  | inside {s s' : σ} {ts : (i : ι) → τ i} {i : ι} {t : τ i} (h : S.inside i (s, ts i) (s', t)) :
    S.Step ⟨s, ts, some i⟩ ⟨s', update ts i t, some i⟩
  | leave {s : σ} {ts : (i : ι) → τ i} {i : ι} {t : τ i} (h : S.leave i (ts i) t) :
    S.Step ⟨s, ts, some i⟩ ⟨s, update ts i t, none⟩

/-- What the threads do in any order. -/
abbrev System.Reaches (S : System ι σ τ) : Config ι σ τ → Config ι σ τ → Prop := ReflTransGen S.Step

/-- One step of one thread, where a section counts as one. -/
inductive System.Serial (S : System ι σ τ) : σ × ((i : ι) → τ i) → σ × ((i : ι) → τ i) → Prop
  | own {s : σ} {ts : (i : ι) → τ i} {i : ι} {t : τ i} (h : S.own i (ts i) t) :
    S.Serial (s, ts) (s, update ts i t)
  | section {s s' : σ} {ts : (i : ι) → τ i} {i : ι} {t t' u : τ i} (henter : S.enter i (ts i) t)
    (hinside : ReflTransGen (S.inside i) (s, t) (s', t')) (hleave : S.leave i t' u) :
    S.Serial (s, ts) (s', update ts i u)

/-- The configuration comes from serial steps, and then from the section of the thread that
holds the lock, as far as it has come. -/
def System.Serialised (S : System ι σ τ) (a : σ × ((i : ι) → τ i)) (c : Config ι σ τ) : Prop :=
  match c.holder with
  | none => ReflTransGen S.Serial a (c.shared, c.threads)
  | some i => ∃ s t₀ t, ReflTransGen S.Serial a (s, update c.threads i t₀) ∧ S.enter i t₀ t ∧
    ReflTransGen (S.inside i) (s, t) (c.shared, c.threads i)

/-- A step of a thread that does not hold the lock can come before the section of the one
that does. -/
theorem System.Serialised.step {a : σ × ((i : ι) → τ i)} {c c' : Config ι σ τ}
    (h : S.Serialised a c) (hs : S.Step c c') : S.Serialised a c' := by
  cases hs with
  | @own s ts holder j t hj hown =>
    cases holder with
    | none => exact .tail h (.own hown)
    | some i =>
      obtain ⟨s₀, t₀, t₁, hserial, henter, hinside⟩ := h
      have hij : i ≠ j := fun e => hj (congrArg some e)
      have hstep : S.Serial (s₀, update ts i t₀) (s₀, update (update ts i t₀) j t) := by
        refine .own ?_
        rw [Function.update_of_ne hij.symm]
        exact hown
      rw [Function.update_comm hij] at hstep
      refine ⟨s₀, t₀, t₁, hserial.tail hstep, henter, ?_⟩
      dsimp only
      rw [Function.update_of_ne hij]
      exact hinside
  | @enter s ts i t henter =>
    refine ⟨s, ts i, t, ?_, henter, ?_⟩
    · dsimp only
      rw [Function.update_idem, Function.update_eq_self]
      exact h
    · dsimp only
      rw [Function.update_self]
  | @inside s s' ts i t hin =>
    obtain ⟨s₀, t₀, t₁, hserial, henter, hinside⟩ := h
    refine ⟨s₀, t₀, t₁, ?_, henter, ?_⟩
    · dsimp only
      rw [Function.update_idem]
      exact hserial
    · dsimp only
      rw [Function.update_self]
      exact hinside.tail hin
  | @leave s ts i t hleave =>
    obtain ⟨s₀, t₀, t₁, hserial, henter, hinside⟩ := h
    have hstep : S.Serial (s₀, update ts i t₀) (s, update (update ts i t₀) i t) := by
      refine .section ?_ hinside hleave
      rw [Function.update_self]
      exact henter
    rw [Function.update_idem] at hstep
    exact hserial.tail hstep

/-- **The sections could have been run one after the other.** -/
theorem serialised_of_reaches {s : σ} {ts : (i : ι) → τ i} {c : Config ι σ τ}
    (h : S.Reaches ⟨s, ts, none⟩ c) : S.Serialised (s, ts) c := by
  induction h with
  | refl => exact .refl
  | tail _ hs ih => exact ih.step hs

/-! ### Configurations without a step -/

def System.Stuck (S : System ι σ τ) (c : Config ι σ τ) : Prop := ∀ c', ¬ S.Step c c'

section

variable {c : Config ι σ τ} {i : ι} {t : τ i}

theorem System.Stuck.not_own (h : S.Stuck c) (hi : c.holder ≠ some i) :
    ¬ S.own i (c.threads i) t := fun hown => h _ (.own hi hown)

theorem System.Stuck.not_enter (h : S.Stuck c) (hi : c.holder = none) :
    ¬ S.enter i (c.threads i) t := by
  obtain ⟨s, ts, holder⟩ := c
  obtain rfl : holder = none := hi
  exact fun henter => h _ (.enter henter)

theorem System.Stuck.not_inside (h : S.Stuck c) (hi : c.holder = some i) {s : σ} :
    ¬ S.inside i (c.shared, c.threads i) (s, t) := by
  obtain ⟨s, ts, holder⟩ := c
  obtain rfl : holder = some i := hi
  exact fun hin => h _ (.inside hin)

theorem System.Stuck.not_leave (h : S.Stuck c) (hi : c.holder = some i) :
    ¬ S.leave i (c.threads i) t := by
  obtain ⟨s, ts, holder⟩ := c
  obtain rfl : holder = some i := hi
  exact fun hleave => h _ (.leave hleave)

end

/-! ### Programs of atomic steps -/

/-- A program; what it does next depends on the state that its step has found. -/
inductive Prog (ε σ : Type*)
  | done
  | atom (f : σ → Except ε σ) (next : σ → Prog ε σ)

namespace Prog

def run {ε : Type*} {σ : Type*} : Prog ε σ → σ → Except ε σ
  | done, s => .ok s
  | atom f next, s => f s >>= (next s).run

inductive Step : σ × Prog ε σ → σ × Prog ε σ → Prop
  | atom {f : σ → Except ε σ} {next : σ → Prog ε σ} {s s' : σ} (h : f s = .ok s') :
    Step (s, atom f next) (s', next s)

/-- A program in the middle leads where it led at the beginning. -/
theorem run_of_steps {x y : σ × Prog ε σ} (h : ReflTransGen Step x y) :
    x.2.run x.1 = y.2.run y.1 := by
  induction h with
  | refl => rfl
  | tail _ hs ih =>
    obtain ⟨hf⟩ := hs
    rw [ih, run, hf]
    rfl

def single (f : σ → Except ε σ) : Prog ε σ := atom f fun _ => done

theorem run_single (f : σ → Except ε σ) : (single f).run = f := by
  funext s
  exact bind_pure _

end Prog

end Locking
