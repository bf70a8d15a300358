import Mathlib.Algebra.GroupWithZero.Nat
import Pgzf.Library.Program

/-!
# Programs on a device that fails by a pattern

The pattern says, operation by operation, whether the next one fails; behind its end none does. Of a
program that performs the same number of operations on every run that succeeds, and succeeds where
some condition holds and none of these operations fails, `Spends` says exactly that. The condition
and the number of operations add up along a bind, along a list, and through a change of the exits.
-/

namespace FaultPattern

open Program

variable {ε ε' σ ι κ α β : Type}

def Clean (pattern : List (Option ι)) (n : Nat) : Prop := ∀ fault ∈ pattern.take n, fault = none

instance [DecidableEq ι] (pattern : List (Option ι)) (n : Nat) : Decidable (Clean pattern n) :=
  inferInstanceAs (Decidable (∀ fault ∈ pattern.take n, fault = none))

theorem clean_zero (pattern : List (Option ι)) : Clean pattern 0 :=
  fun _ hmem => absurd hmem List.not_mem_nil

theorem clean_nil (n : Nat) : Clean ([] : List (Option ι)) n := by
  intro fault hmem
  rw [List.take_nil] at hmem
  exact absurd hmem List.not_mem_nil

theorem clean_add {pattern : List (Option ι)} {m n : Nat} :
    Clean pattern (m + n) ↔ Clean pattern m ∧ Clean (pattern.drop m) n := by
  simp only [Clean, List.take_add, List.mem_append, or_imp, forall_and]

variable (faults : σ → List (Option ι))

/-- The program ends with a value exactly where `c` holds and none of its `n` operations fails, and
has then performed them; `Q` holds of the value and the state, and `R` of any other exit. -/
def Spends (m : EStateM ε σ α) (s : σ) (c : Prop) (n : Nat) (Q : α → σ → Prop) (R : ε → Prop) :
    Prop :=
  match m s with
  | .ok a s' => c ∧ Clean (faults s) n ∧ faults s' = (faults s).drop n ∧ Q a s'
  | .error e _ => ¬ (c ∧ Clean (faults s) n) ∧ R e

variable {faults} {m : EStateM ε σ α} {s : σ} {c c' : Prop} {n n' : Nat} {Q Q' : α → σ → Prop}
  {R R' : ε → Prop}

theorem spends_ok {a : α} {s' : σ} (hrun : m s = .ok a s') (hc : c) (hclean : Clean (faults s) n)
    (hfaults : faults s' = (faults s).drop n) (hQ : Q a s') : Spends faults m s c n Q R := by
  rw [Spends, hrun]
  exact ⟨hc, hclean, hfaults, hQ⟩

theorem spends_error {e : ε} {s' : σ} (hrun : m s = .error e s') (hnot : ¬ (c ∧ Clean (faults s) n))
    (hR : R e) :
    Spends faults m s c n Q R := by
  rw [Spends, hrun]
  exact ⟨hnot, hR⟩

theorem spends_free {a : α} {s' : σ} (hrun : m s = .ok a s') (hfaults : faults s' = faults s)
    (hQ : Q a s') :
    Spends faults m s True 0 Q R :=
  spends_ok hrun trivial (clean_zero _) hfaults hQ

theorem Spends.of_ok (h : Spends faults m s c n Q R) {a : α} {s' : σ} (hrun : m s = .ok a s') :
    c ∧ Clean (faults s) n ∧ faults s' = (faults s).drop n ∧ Q a s' := by
  rwa [Spends, hrun] at h

theorem Spends.of_error (h : Spends faults m s c n Q R) {e : ε} {s' : σ}
    (hrun : m s = .error e s') :
    ¬ (c ∧ Clean (faults s) n) ∧ R e := by
  rwa [Spends, hrun] at h

theorem Spends.exists_ok (h : Spends faults m s c n Q R) (hc : c) (hclean : Clean (faults s) n) :
    ∃ a s', m s = .ok a s' ∧ faults s' = (faults s).drop n ∧ Q a s' := by
  cases hrun : m s with
  | ok a s' =>
    obtain ⟨-, -, hfaults, hQ⟩ := h.of_ok hrun
    exact ⟨a, s', rfl, hfaults, hQ⟩
  | error e s' => exact absurd ⟨hc, hclean⟩ (h.of_error hrun).1

theorem Spends.congr (h : Spends faults m s c n Q R) (hc : c ↔ c') (hn : n = n') :
    Spends faults m s c' n' Q R := by
  subst hn
  rwa [propext hc] at h

theorem Spends.mono (h : Spends faults m s c n Q R) (hQ : ∀ a s', Q a s' → Q' a s')
    (hR : ∀ e, R e → R' e) :
    Spends faults m s c n Q' R' := by
  cases hrun : m s with
  | ok a s' =>
    obtain ⟨hc, hclean, hfaults, hpost⟩ := h.of_ok hrun
    exact spends_ok hrun hc hclean hfaults (hQ a s' hpost)
  | error e s' =>
    obtain ⟨hnot, hexit⟩ := h.of_error hrun
    exact spends_error hrun hnot (hR e hexit)

theorem Spends.bind {f : α → EStateM ε σ β} {S : β → σ → Prop} (hm : Spends faults m s c n Q R)
    (hf : ∀ a s', Q a s' → Spends faults (f a) s' c' n' S R) :
    Spends faults (m >>= f) s (c ∧ c') (n + n') S R := by
  cases hrun : m s with
  | error e s' =>
    obtain ⟨hnot, hexit⟩ := hm.of_error hrun
    exact spends_error (bind_error hrun) (fun h => hnot ⟨h.1.1, (clean_add.mp h.2).1⟩) hexit
  | ok a mid =>
    obtain ⟨hc, hclean, hfaults, hpost⟩ := hm.of_ok hrun
    have hnext := hf a mid hpost
    cases hlast : f a mid with
    | error e s' =>
      obtain ⟨hnot, hexit⟩ := hnext.of_error hlast
      apply spends_error ((bind_ok hrun).trans hlast) _ hexit
      rw [hfaults] at hnot
      exact fun h => hnot ⟨h.1.2, (clean_add.mp h.2).2⟩
    | ok b s' =>
      obtain ⟨hc', hclean', hfaults', hpost'⟩ := hnext.of_ok hlast
      rw [hfaults] at hclean' hfaults'
      exact spends_ok ((bind_ok hrun).trans hlast) ⟨hc, hc'⟩ (clean_add.mpr ⟨hclean, hclean'⟩)
        (hfaults'.trans List.drop_drop) hpost'

theorem Spends.perform {f : α → EStateM ε σ β} {S : β → σ → Prop}
    (hm : Spends faults m s True n Q R) (hf : ∀ a s', Q a s' → Spends faults (f a) s' c n' S R) :
    Spends faults (m >>= f) s c (n + n') S R :=
  (hm.bind hf).congr (and_iff_right trivial) rfl

theorem Spends.from {m' : EStateM ε σ α} {s' : σ} (h : Spends faults m' s' c n Q R)
    (hrun : m s = m' s') (hfaults : faults s' = faults s) : Spends faults m s c n Q R := by
  rw [Spends, hrun, ← hfaults]
  exact h

theorem Spends.after {f : α → EStateM ε σ β} {S : β → σ → Prop} {a : α} {mid : σ}
    (hrun : m s = .ok a mid) (hfaults : faults mid = faults s)
    (h : Spends faults (f a) mid c n S R) : Spends faults (m >>= f) s c n S R :=
  h.from (bind_ok hrun) hfaults

theorem Spends.onPart {τ : Type} {part : τ → σ} {put : τ → σ → τ} {outer : τ → List (Option ι)}
    {t : τ} {S : α → τ → Prop} (h : Spends faults m (part t) c n Q R)
    (hfaults : outer t = faults (part t)) (hput : ∀ s', outer (put t s') = faults s')
    (hS : ∀ a s', Q a s' → S a (put t s')) : Spends outer (onPart part put m) t c n S R := by
  cases hrun : m (part t) with
  | ok a s' =>
    obtain ⟨hc, hclean, hleft, hpost⟩ := h.of_ok hrun
    rw [← hfaults] at hclean hleft
    exact spends_ok (onPart_ok hrun) hc hclean ((hput s').trans hleft) (hS a s' hpost)
  | error e s' =>
    obtain ⟨hnot, hexit⟩ := h.of_error hrun
    rw [← hfaults] at hnot
    exact spends_error (onPart_error hrun) hnot hexit

theorem Spends.mapM {op : κ → EStateM ε σ α} {P : σ → Prop} {cost : κ → Prop} {ops : κ → Nat}
    {items : List κ}
    (hop : ∀ i ∈ items, ∀ s, P s → Spends faults (op i) s (cost i) (ops i) (fun _ s' => P s') R)
    (hs : P s) :
    Spends faults (items.mapM op) s (∀ i ∈ items, cost i) (items.map ops).sum (fun _ s' =>
      P s') R := by
  induction items generalizing s with
  | nil => exact (spends_free rfl rfl hs).congr (by simp) rfl
  | cons first rest ih =>
    have hfirst := hop first List.mem_cons_self s hs
    rw [List.mapM_cons]
    refine (hfirst.bind fun a mid hmid =>
      (ih (fun i hi => hop i (List.mem_cons_of_mem _ hi)) hmid).bind
      fun as last hlast => spends_free rfl rfl hlast).congr ?_ ?_
    · simp only [List.mem_cons, forall_eq_or_imp, and_true]
    · rw [List.map_cons, List.sum_cons, Nat.add_zero]

theorem Spends.renamed {m' : EStateM ε' σ α} {R' : ε' → Prop} (h : Spends faults m s c n Q R)
    (hok : ∀ a s', m s = .ok a s' → m' s = .ok a s')
    (herror : ∀ e s', m s = .error e s' → R e → ∃ e', m' s = .error e' s' ∧ R' e') :
    Spends faults m' s c n Q R' := by
  cases hrun : m s with
  | ok a s' =>
    obtain ⟨hc, hclean, hfaults, hpost⟩ := h.of_ok hrun
    exact spends_ok (hok a s' hrun) hc hclean hfaults hpost
  | error e s' =>
    obtain ⟨hnot, hexit⟩ := h.of_error hrun
    obtain ⟨e', hrun', hexit'⟩ := herror e s' hrun hexit
    exact spends_error hrun' hnot hexit'

end FaultPattern
