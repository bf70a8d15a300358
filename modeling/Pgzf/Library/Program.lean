import Mathlib.Data.List.Basic

/-!
# Programs with a state and an early exit

A program is a map in `EStateM`: it ends with a value or with an exit, and both ends carry the state
that was reached, so what a failed call leaves behind stays visible. The lemmas here run one bind at
a time. `bind_ok` and `bind_error` are the two rules a proof uses; the rest is the simp set for the
primitive operations.

The second half is the rule for runs. A step function of an abstract machine answers a request and
moves on; when a program answers every request as the machine does and keeps a relation between the
states, a whole list of requests is answered as the machine's `trace` says.
-/

namespace Program

variable {ε σ τ ι α β : Type}

theorem bind_apply (m : EStateM ε σ α) (f : α → EStateM ε σ β) (s : σ) :
    (m >>= f) s = match m s with
      | .ok a s' => f a s'
      | .error e s' => .error e s' := rfl

theorem bind_ok {m : EStateM ε σ α} {f : α → EStateM ε σ β} {s s' : σ} {a : α}
    (h : m s = .ok a s') :
    (m >>= f) s = f a s' := by
  rw [bind_apply, h]

theorem bind_error {m : EStateM ε σ α} {f : α → EStateM ε σ β} {s s' : σ} {e : ε}
    (h : m s = .error e s') : (m >>= f) s = .error e s' := by
  rw [bind_apply, h]

theorem of_bind_ok {m : EStateM ε σ α} {f : α → EStateM ε σ β} {s s' : σ} {b : β}
    (h : (m >>= f) s = .ok b s') : ∃ a mid, m s = .ok a mid ∧ f a mid = .ok b s' := by
  rw [bind_apply] at h
  cases hm : m s with
  | ok a mid => exact ⟨a, mid, rfl, by rwa [hm] at h⟩
  | error e mid =>
    rw [hm] at h
    exact absurd h (by simp)

@[simp] theorem pure_apply (a : α) (s : σ) : (pure a : EStateM ε σ α) s = .ok a s := rfl

@[simp] theorem get_apply (s : σ) : (get : EStateM ε σ σ) s = .ok s s := rfl

@[simp] theorem set_apply (s s' : σ) : (set s' : EStateM ε σ PUnit) s = .ok ⟨⟩ s' := rfl

@[simp] theorem modify_apply (f : σ → σ) (s : σ) :
    (modify f : EStateM ε σ PUnit) s = .ok ⟨⟩ (f s) := rfl

@[simp] theorem throw_apply (e : ε) (s : σ) : (throw e : EStateM ε σ α) s = .error e s := rfl

/-- Run a program on one component of a larger state. -/
def onPart (part : σ → τ) (put : σ → τ → σ) (m : EStateM ε τ α) : EStateM ε σ α := fun s =>
  match m (part s) with
  | .ok a t => .ok a (put s t)
  | .error e t => .error e (put s t)

theorem onPart_ok {part : σ → τ} {put : σ → τ → σ} {m : EStateM ε τ α} {s : σ} {t : τ} {a : α}
    (h : m (part s) = .ok a t) : onPart part put m s = .ok a (put s t) := by
  rw [onPart, h]

theorem onPart_error {part : σ → τ} {put : σ → τ → σ} {m : EStateM ε τ α} {s : σ} {t : τ} {e : ε}
    (h : m (part s) = .error e t) : onPart part put m s = .error e (put s t) := by
  rw [onPart, h]

def outcome : EStateM.Result ε σ α → Except ε α
  | .ok a _ => .ok a
  | .error e _ => .error e

theorem exists_of_outcome {r : EStateM.Result ε σ α} {a : α} (h : outcome r = .ok a) :
    ∃ s, r = .ok a s := by
  cases r with
  | ok b s => exact ⟨s, by rw [Except.ok.inj h]⟩
  | error e s => exact absurd h (by simp [outcome])

theorem exists_of_outcome_error {r : EStateM.Result ε σ α} {e : ε} (h : outcome r = .error e) :
    ∃ s, r = .error e s := by
  cases r with
  | ok a s => exact absurd h (by simp [outcome])
  | error e' s => exact ⟨s, by rw [Except.error.inj h]⟩

/-! ### What a program keeps -/

/-- Whichever way a program ends, `P` still holds of the state. -/
def Keeps (P : σ → Prop) (m : EStateM ε σ α) : Prop :=
  ∀ s, P s → match m s with
    | .ok _ s' => P s'
    | .error _ s' => P s'

variable {P : σ → Prop}

theorem Keeps.of_ok {m : EStateM ε σ α} (h : Keeps P m) {s s' : σ} {a : α} (hs : P s)
    (hrun : m s = .ok a s') : P s' := by
  have := h s hs
  rwa [hrun] at this

theorem Keeps.of_error {m : EStateM ε σ α} (h : Keeps P m) {s s' : σ} {e : ε} (hs : P s)
    (hrun : m s = .error e s') : P s' := by
  have := h s hs
  rwa [hrun] at this

theorem Keeps.bind {m : EStateM ε σ α} {f : α → EStateM ε σ β} (hm : Keeps P m)
    (hf : ∀ a, Keeps P (f a)) :
    Keeps P (m >>= f) := by
  intro s hs
  have hmid := hm s hs
  rw [bind_apply]
  cases hrun : m s with
  | ok a mid =>
    rw [hrun] at hmid
    exact hf a mid hmid
  | error e mid =>
    rw [hrun] at hmid
    exact hmid

theorem keeps_pure (P : σ → Prop) (a : α) : Keeps P (pure a : EStateM ε σ α) := fun _ hs => hs

theorem keeps_throw (P : σ → Prop) (e : ε) : Keeps P (throw e : EStateM ε σ α) := fun _ hs => hs

theorem keeps_get (P : σ → Prop) : Keeps P (get : EStateM ε σ σ) := fun _ hs => hs

/-! ### Postconditions -/

section Post

variable {Q Q' : α → σ → Prop} {R R' : ε → σ → Prop} {S : β → σ → Prop}

/-- The result is a value, in a state that satisfies `Q` with it, or an exit, in a state that
satisfies `R` with it. -/
def Post (Q : α → σ → Prop) (R : ε → σ → Prop) : EStateM.Result ε σ α → Prop
  | .ok a s => Q a s
  | .error e s => R e s

theorem Post.bind {m : EStateM ε σ α} {f : α → EStateM ε σ β} {s : σ} (hm : Post Q R (m s))
    (hf : ∀ a s', Q a s' → Post S R (f a s')) : Post S R ((m >>= f) s) := by
  rw [bind_apply]
  cases hrun : m s with
  | ok a s' =>
    rw [hrun] at hm
    exact hf a s' hm
  | error e s' =>
    rw [hrun] at hm
    exact hm

theorem Post.ite {c : Prop} [Decidable c] {m m' : EStateM ε σ α} {s : σ} (hm : c → Post Q R (m s))
    (hm' : ¬ c → Post Q R (m' s)) : Post Q R ((if c then m else m') s) := by
  by_cases hc : c
  · rw [if_pos hc]
    exact hm hc
  · rw [if_neg hc]
    exact hm' hc

theorem Post.mono {result : EStateM.Result ε σ α} (h : Post Q R result) (hQ : ∀ a s, Q a s → Q' a s)
    (hR : ∀ e s, R e s → R' e s) : Post Q' R' result := by
  cases result with
  | ok a s => exact hQ a s h
  | error e s => exact hR e s h

theorem Post.of_ok {result : EStateM.Result ε σ α} (h : Post Q R result) {a : α} {s : σ}
    (hrun : result = .ok a s) :
    Q a s := by
  subst hrun
  exact h

theorem Post.of_error {result : EStateM.Result ε σ α} (h : Post Q R result) {e : ε} {s : σ}
    (hrun : result = .error e s) :
    R e s := by
  subst hrun
  exact h

theorem Post.ok_or_error {result : EStateM.Result ε σ α} (h : Post Q R result) :
    (∃ a s, result = .ok a s ∧ Q a s) ∨ ∃ e s, result = .error e s ∧ R e s := by
  cases result with
  | ok a s => exact .inl ⟨a, s, rfl, h⟩
  | error e s => exact .inr ⟨e, s, rfl, h⟩

theorem Post.exists_ok {result : EStateM.Result ε σ α} (h : Post Q (fun _ _ => False) result) :
    ∃ a s, result = .ok a s ∧ Q a s :=
  h.ok_or_error.resolve_right fun ⟨_, _, _, hfalse⟩ => hfalse

instance Post.decidable [∀ a s, Decidable (Q a s)] [∀ e s, Decidable (R e s)] :
    ∀ result : EStateM.Result ε σ α, Decidable (Post Q R result)
  | .ok a s => inferInstanceAs (Decidable (Q a s))
  | .error e s => inferInstanceAs (Decidable (R e s))

theorem Keeps.post {m : EStateM ε σ α} {s : σ} (h : Keeps P m) (hs : P s) :
    Post (fun _ s' => P s') (fun _ s' => P s') (m s) := by
  have hend := h s hs
  cases hrun : m s with
  | ok a s' => rwa [hrun] at hend
  | error e s' => rwa [hrun] at hend

theorem Post.onPart {part : σ → τ} {put : σ → τ → σ} {m : EStateM ε τ α} {s : σ} {Q₁ : α → τ → Prop}
    {R₁ : ε → τ → Prop} (h : Post Q₁ R₁ (m (part s))) (hQ : ∀ a t, Q₁ a t → Q a (put s t))
    (hR : ∀ e t, R₁ e t → R e (put s t)) :
    Post Q R (onPart part put m s) := by
  rw [Program.onPart]
  cases hrun : m (part s) with
  | ok a t =>
    rw [hrun] at h
    exact hQ a t h
  | error e t =>
    rw [hrun] at h
    exact hR e t h

end Post

/-! ### Runs -/

/-- The answers of a machine to a list of requests. -/
def trace (step : σ → ι → β × σ) : σ → List ι → List β
  | _, [] => []
  | s, i :: rest => (step s i).1 :: trace step (step s i).2 rest

/-- The state a machine is in after a list of requests. -/
def final (step : σ → ι → β × σ) : σ → List ι → σ
  | s, [] => s
  | s, i :: rest => final step (step s i).2 rest

theorem mapM_cons_apply (op : ι → EStateM ε σ α) (i : ι) (rest : List ι) (s : σ) :
    ((i :: rest).mapM op) s = match op i s with
      | .ok a s' => (match (rest.mapM op) s' with
        | .ok as s'' => .ok (a :: as) s''
        | .error e s'' => .error e s'')
      | .error e s' => .error e s' := by
  rw [List.mapM_cons, bind_apply]
  cases op i s with
  | error e s' => rfl
  | ok a s' =>
    simp only [bind_apply]
    cases (rest.mapM op) s' <;> rfl

theorem of_mapM_ok {op : ι → EStateM ε σ α} {items : List ι} {s s' : σ} {as : List α}
    (h : (items.mapM op) s = .ok as s') : ∀ i ∈ items, ∃ a t t', op i t = .ok a t' := by
  induction items generalizing s s' as with
  | nil => exact fun i hi => absurd hi List.not_mem_nil
  | cons first rest ih =>
    rw [List.mapM_cons] at h
    obtain ⟨a, mid, hfirst, h⟩ := of_bind_ok h
    obtain ⟨as, mid', hrest, -⟩ := of_bind_ok h
    intro i hi
    rcases List.mem_cons.mp hi with rfl | hi
    · exact ⟨a, s, mid, hfirst⟩
    · exact ih hrest i hi

/-- A program whose effect on each item is known, from any state with `P`, maps a list as expected.
-/
theorem mapM_eq_map {op : ι → EStateM ε σ α} {f : ι → α} {g : σ → ι → σ} {P : σ → Prop}
    {items : List ι} (hop : ∀ s, P s → ∀ i ∈ items, op i s = .ok (f i) (g s i) ∧ P (g s i)) {s : σ}
    (hs : P s) :
    (items.mapM op) s = .ok (items.map f) (items.foldl g s) ∧ P (items.foldl g s) := by
  induction items generalizing s with
  | nil => exact ⟨rfl, hs⟩
  | cons i rest ih =>
    obtain ⟨hi, hnext⟩ := hop s hs i List.mem_cons_self
    obtain ⟨hrest, hfinal⟩ := ih (fun s hs j hj => hop s hs j (List.mem_cons_of_mem _ hj)) hnext
    refine ⟨?_, hfinal⟩
    rw [mapM_cons_apply, hi]
    simp only [hrest, List.map_cons, List.foldl_cons]

theorem mapM_except_ok {f : ι → Except ε α} {g : ι → α} {items : List ι}
    (h : ∀ i ∈ items, f i = .ok (g i)) :
    items.mapM f = .ok (items.map g) := by
  induction items with
  | nil => rfl
  | cons i rest ih =>
    rw [List.mapM_cons, h i List.mem_cons_self, ih fun j hj => h j (List.mem_cons_of_mem _ hj)]
    rfl

/-- A function that may fail has mapped a list exactly where it has mapped each of the items. -/
theorem mapM_except_eq_ok {f : ι → Except ε α} {items : List ι} {as : List α} :
    items.mapM f = .ok as ↔ List.Forall₂ (fun i a => f i = .ok a) items as := by
  induction items generalizing as with
  | nil =>
    constructor
    · intro h
      obtain rfl := Except.ok.inj h
      exact .nil
    · rintro ⟨⟩
      rfl
  | cons first rest ih =>
    rw [List.mapM_cons]
    constructor
    · intro h
      cases hfirst : f first with
      | error e =>
        rw [hfirst] at h
        exact absurd h (by simp [bind, Except.bind])
      | ok a =>
        cases hrest : rest.mapM f with
        | error e =>
          rw [hfirst, hrest] at h
          exact absurd h (by simp [bind, Except.bind])
        | ok later =>
          rw [hfirst, hrest] at h
          obtain rfl := Except.ok.inj h
          exact .cons hfirst (ih.mp hrest)
    · rintro (_ | ⟨hfirst, hrest⟩)
      rw [hfirst, ih.mpr hrest]
      rfl

theorem of_mapM_except_ok {f : ι → Except ε α} {items : List ι} {as : List α}
    (h : items.mapM f = .ok as) :
    ∀ i ∈ items, ∃ a, f i = .ok a := by
  induction mapM_except_eq_ok.mp h with
  | nil => exact fun i hi => absurd hi List.not_mem_nil
  | cons hfirst hrest ih =>
    intro i hi
    rcases List.mem_cons.mp hi with rfl | hi
    · exact ⟨_, hfirst⟩
    · exact ih (mapM_except_eq_ok.mpr hrest) i hi

theorem mem_of_mapM_except_ok {f : ι → Except ε α} {items : List ι} {as : List α}
    (h : items.mapM f = .ok as) :
    ∀ a ∈ as, ∃ i ∈ items, f i = .ok a := by
  induction mapM_except_eq_ok.mp h with
  | nil => exact fun a ha => absurd ha List.not_mem_nil
  | cons hfirst hrest ih =>
    intro a ha
    rcases List.mem_cons.mp ha with rfl | ha
    · exact ⟨_, List.mem_cons_self, hfirst⟩
    · obtain ⟨i, hi, hf⟩ := ih (mapM_except_eq_ok.mpr hrest) a ha
      exact ⟨i, List.mem_cons_of_mem _ hi, hf⟩

/-- `P` holds of the state and the request at every step of a run. -/
def AllSteps (op : ι → EStateM ε σ α) (P : σ → ι → Prop) : σ → List ι → Prop
  | _, [] => True
  | s, i :: rest => P s i ∧ ∀ a s', op i s = .ok a s' → AllSteps op P s' rest

instance AllSteps.decidable {op : ι → EStateM ε σ α} {P : σ → ι → Prop} [∀ s i, Decidable (P s i)] :
    ∀ s requests, Decidable (AllSteps op P s requests)
  | _, [] => .isTrue trivial
  | s, i :: rest =>
    match h : op i s with
    | .ok a s' =>
      have : Decidable (AllSteps op P s' rest) := AllSteps.decidable s' rest
      decidable_of_iff (P s i ∧ AllSteps op P s' rest) <| by
        refine and_congr_right fun _ => ⟨fun hrest b t hb => ?_, fun hall => hall a s' h⟩
        obtain ⟨-, rfl⟩ := EStateM.Result.ok.inj (h.symm.trans hb)
        exact hrest
    | .error _ _ =>
      decidable_of_iff (P s i) <| by
        refine ⟨fun hi => ⟨hi, fun a s' hok => absurd (h.symm.trans hok) (by simp)⟩,
          fun hall => hall.1⟩

theorem allSteps_of_forall {op : ι → EStateM ε σ α} {P : σ → ι → Prop} {requests : List ι}
    (h : ∀ s, ∀ i ∈ requests, P s i) (s : σ) : AllSteps op P s requests := by
  induction requests generalizing s with
  | nil => trivial
  | cons i rest ih =>
    exact ⟨h s i List.mem_cons_self, fun _ s' _ =>
      ih (fun s j hj => h s j (List.mem_cons_of_mem _ hj)) s'⟩

theorem AllSteps.invariant {op : ι → EStateM ε σ α} {P : σ → ι → Prop} {Inv : σ → Prop}
    (hstep : ∀ s i a s', Inv s → P s i → op i s = .ok a s' → Inv s') {requests : List ι} {s s' : σ}
    {as : List α} (hP : AllSteps op P s requests) (hs : Inv s)
    (hrun : (requests.mapM op) s = .ok as s') : Inv s' := by
  induction requests generalizing s as with
  | nil =>
    obtain ⟨-, rfl⟩ := EStateM.Result.ok.inj hrun
    exact hs
  | cons i rest ih =>
    rw [List.mapM_cons] at hrun
    obtain ⟨a, mid, hop, hrun⟩ := of_bind_ok hrun
    obtain ⟨as, last, hrest, hrun⟩ := of_bind_ok hrun
    obtain ⟨-, rfl⟩ := EStateM.Result.ok.inj hrun
    exact ih (hP.2 a mid hop) (hstep s i a mid hs hP.1 hop) hrest

/-- A program that answers each request as the machine does, and keeps a relation to the machine's
state, answers every list of requests as the machine does. -/
theorem mapM_eq_trace {op : ι → EStateM ε σ α} {step : τ → ι → α × τ} {R : σ → τ → Prop}
    {P : σ → ι → Prop}
    (hstep : ∀ s t i, R s t → P s i → ∃ s', op i s = .ok (step t i).1 s' ∧ R s' (step t i).2)
    {requests : List ι} {s : σ} {t : τ} (hR : R s t) (hP : AllSteps op P s requests) :
    ∃ s', (requests.mapM op) s = .ok (trace step t requests) s' ∧ R s' (final step t requests) := by
  induction requests generalizing s t with
  | nil => exact ⟨s, rfl, hR⟩
  | cons i rest ih =>
    obtain ⟨mid, hop, hmid⟩ := hstep s t i hR hP.1
    obtain ⟨s', hrest, hfinal⟩ := ih hmid (hP.2 _ _ hop)
    refine ⟨s', ?_, hfinal⟩
    rw [mapM_cons_apply, hop]
    simp only [hrest, trace]

end Program
