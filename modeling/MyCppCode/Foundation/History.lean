import Mathlib.Data.List.Basic

/-!
# History — what is seen of an object that several threads call

A history is the list of the calls, effects and returns of all threads, in the order in which they
happen.  The object is linearizable if the effects, in this order, are those of a sequential object,
and each thread calls, takes one effect that answers its call, and returns the answer.

The operations, the effects and the results are parameters: `answers op e r` says that the effect `e`
is one that `op` may take, and that `op` returns `r` then; `δ q e q'` that `e` takes the sequential
object from `q` to `q'`.
-/

namespace MyCppCode
namespace Foundation
namespace History

universe u v w x

variable {ω : Type u} {η : Type v} {ρ : Type w} {σ : Type x}

inductive Act (ω : Type u) (η : Type v) (ρ : Type w)
  | call (op : ω)
  | effect (e : η)
  | ret (r : ρ)
  deriving DecidableEq, Repr

structure Entry (ω : Type u) (η : Type v) (ρ : Type w) where
  thread : Nat
  act : Act ω η ρ
  deriving DecidableEq, Repr

/-! ## The sequential object -/

/-- The effects `es`, one after the other, take the sequential object from `q` to `q'`. -/
inductive Replays (δ : σ → η → σ → Prop) (q : σ) : List η → σ → Prop where
  | nil : Replays δ q [] q
  | snoc {es : List η} {q' q'' : σ} {e : η} : Replays δ q es q' → δ q' e q'' →
      Replays δ q (es ++ [e]) q''

def Act.effect? : Act ω η ρ → Option η
  | .effect e => some e
  | _ => none

@[simp] theorem filterMap_call (op : ω) (acts : List (Act ω η ρ)) :
    (Act.call op :: acts).filterMap Act.effect? = acts.filterMap Act.effect? := rfl

@[simp] theorem filterMap_effect (e : η) (acts : List (Act ω η ρ)) :
    (Act.effect e :: acts).filterMap Act.effect? = e :: acts.filterMap Act.effect? := rfl

@[simp] theorem filterMap_ret (r : ρ) (acts : List (Act ω η ρ)) :
    (Act.ret r :: acts).filterMap Act.effect? = acts.filterMap Act.effect? := rfl

/-- The effects of a history, in order. -/
def effects (log : List (Entry ω η ρ)) : List η := log.filterMap fun e => e.act.effect?

@[simp] theorem effects_append (log log' : List (Entry ω η ρ)) :
    effects (log ++ log') = effects log ++ effects log' :=
  List.filterMap_append

@[simp] theorem effects_map (thread : Nat) (acts : List (Act ω η ρ)) :
    effects (acts.map fun act => (⟨thread, act⟩ : Entry ω η ρ)) = acts.filterMap Act.effect? := by
  rw [effects, List.filterMap_map]
  rfl

/-! ## The threads -/

/-- Where a thread is between its calls and returns. -/
inductive Phase (ω : Type u) (ρ : Type w)
  | idle
  | pending (op : ω)
  | decided (r : ρ)
  deriving DecidableEq, Repr

/-- A call, an effect that answers it, the return of the answer. -/
inductive Phase.Next (answers : ω → η → ρ → Prop) : Phase ω ρ → Act ω η ρ → Phase ω ρ → Prop where
  | call (op : ω) : Phase.Next answers .idle (.call op) (.pending op)
  | effect {op : ω} {e : η} {r : ρ} : answers op e r →
      Phase.Next answers (.pending op) (.effect e) (.decided r)
  | ret (r : ρ) : Phase.Next answers (.decided r) (.ret r) .idle

/-- The acts of the thread in the history are operations one after the other, the last of them perhaps
not finished. -/
inductive Follows (answers : ω → η → ρ → Prop) (thread : Nat) :
    List (Entry ω η ρ) → Phase ω ρ → Prop where
  | nil : Follows answers thread [] .idle
  | other {log : List (Entry ω η ρ)} {p : Phase ω ρ} {e : Entry ω η ρ} :
      Follows answers thread log p → e.thread ≠ thread → Follows answers thread (log ++ [e]) p
  | own {log : List (Entry ω η ρ)} {p p' : Phase ω ρ} {act : Act ω η ρ} :
      Follows answers thread log p → p.Next answers act p' →
      Follows answers thread (log ++ [⟨thread, act⟩]) p'

variable {answers : ω → η → ρ → Prop}

/-- What other threads do is not an act of this one. -/
theorem Follows.others {log : List (Entry ω η ρ)} {u thread : Nat} {p : Phase ω ρ}
    (h : Follows answers u log p) (hne : thread ≠ u) (acts : List (Act ω η ρ)) :
    Follows answers u (log ++ acts.map fun act => ⟨thread, act⟩) p := by
  induction acts generalizing log with
  | nil =>
      simpa using h
  | cons act acts ih =>
      have hmore := ih (Follows.other (e := ⟨thread, act⟩) h hne)
      simpa using hmore

end History
end Foundation
end MyCppCode
