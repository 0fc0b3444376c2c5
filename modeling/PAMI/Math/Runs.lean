import Mathlib.Data.List.Basic

namespace PAMI.Math

section Runs

variable {σ ε : Type*} {step : σ → ε → Option σ} {ok : σ → ε → Prop} {start s : σ}

/-- The states that runs reach whose steps all meet a condition. -/
inductive Run (step : σ → ε → Option σ) (ok : σ → ε → Prop) (start : σ) : σ → Prop
  | refl : Run step ok start start
  | step {s s' : σ} {e : ε} (h : Run step ok start s) (hok : ok s e) (hs : step s e = some s') :
      Run step ok start s'

theorem Run.invariant {P : σ → Prop} (h : Run step ok start s) (h0 : P start)
    (hs : ∀ s e s', P s → ok s e → step s e = some s' → P s') : P s := by
  induction h with
  | refl => exact h0
  | step _ hok he ih => exact hs _ _ _ ih hok he

theorem Run.imp {ok' : σ → ε → Prop} (h : Run step ok start s) (hok : ∀ s e, ok s e → ok' s e) :
    Run step ok' start s := by
  induction h with
  | refl => exact .refl
  | step _ he hs ih => exact ih.step (hok _ _ he) hs

theorem Run.trans {s' : σ} (h : Run step ok start s) (h' : Run step ok s s') :
    Run step ok start s' := by
  induction h' with
  | refl => exact h
  | step _ hok hs ih => exact ih.step hok hs

def execEvents (step : σ → ε → Option σ) : List ε → σ → Option σ
  | [], s => some s
  | e :: es, s => (step s e).bind (execEvents step es)

theorem Run.execEvents (h : Run step ok start s) (es : List ε) {s' : σ}
    (hok : ∀ s, ∀ e ∈ es, ok s e) (hes : execEvents step es s = some s') : Run step ok start s' := by
  induction es generalizing s with
  | nil =>
    obtain rfl := Option.some.inj hes
    exact h
  | cons e es ih =>
    obtain ⟨s1,hs1,hrs⟩ := Option.bind_eq_some_iff.mp hes
    exact ih (h.step (hok s e List.mem_cons_self) hs1)
      (fun s e he => hok s e (List.mem_cons_of_mem _ he)) hrs

theorem Run.checked [∀ s e,Decidable (ok s e)] (h : Run step ok start s) (es : List ε) {s' : σ}
    (hes : Math.execEvents (fun s e => if ok s e then step s e else none) es s = some s') :
    Run step ok start s' := by
  induction es generalizing s with
  | nil =>
    obtain rfl := Option.some.inj hes
    exact h
  | cons e es ih =>
    obtain ⟨s1,hs1,hrs⟩ := Option.bind_eq_some_iff.mp hes
    obtain ⟨hok,hs1⟩ := Option.ite_none_right_eq_some.mp hs1
    exact ih (h.step hok hs1) hrs

end Runs

section Rounds

variable {α : Type*}

/-- Before round `p`, what `a` knew at first has come to `e` in the messages of earlier rounds;
`src q e` are those `e` hears from in round `q`. -/
inductive Reaches (src : ℕ → α → List α) : ℕ → α → α → Prop
  | refl (p : ℕ) (a : α) : Reaches src p a a
  | step {p q : ℕ} {a c e : α} (h : Reaches src q a c) (hq : q < p) (hc : c ∈ src q e) :
      Reaches src p a e

theorem Reaches.mono {src : ℕ → α → List α} {p p' : ℕ} {a e : α} (h : Reaches src p a e)
    (hp : p≤p') : Reaches src p' a e := by
  cases h with
  | refl => exact .refl p' a
  | step h hq hc => exact .step h (Nat.lt_of_lt_of_le hq hp) hc

theorem Reaches.imp {src src' : ℕ → α → List α} {p : ℕ} {a e : α} (h : Reaches src p a e)
    (hsrc : ∀ q e c, c ∈ src q e → c ∈ src' q e) : Reaches src' p a e := by
  induction h with
  | refl p a => exact .refl p a
  | step _ hq hc ih => exact .step ih hq (hsrc _ _ _ hc)

end Rounds

end PAMI.Math
