import Pgzf.Library.Program

/-!
# A program that stops on the way

`Halts R E V m m'` compares a run that may be cut short, on a device that fails now and then, with
one that is not. Where `m` ends with a value, so does `m'` from a related state, with a related
value and in a related state again. Where `m` ends with an exit, `E` relates the state it has
stopped in to the one in which `m'` ends, with a value or with an exit. So `E` has to last while
`m'` goes on, and that is what the rule for a bind asks for.
-/

namespace Program

variable {ε ε' σ σ' τ τ' ι α α' β β' : Type}

/-- The state in which a run has ended. -/
def endState : EStateM.Result ε σ α → σ
  | .ok _ s => s
  | .error _ s => s

theorem Keeps.endState {P : σ → Prop} {m : EStateM ε σ α} (h : Keeps P m) {s : σ} (hs : P s) :
    P (endState (m s)) := by
  have hend := h s hs
  cases hrun : m s with
  | ok a t => rwa [hrun] at hend
  | error e t => rwa [hrun] at hend

theorem keeps_set {P : σ → Prop} {s : σ} (h : P s) : Keeps P (set s : EStateM ε σ PUnit) :=
  fun _ _ => h

theorem keeps_get_bind {P : σ → Prop} {f : σ → EStateM ε σ α} (h : ∀ s, P s → Keeps P (f s)) :
    Keeps P ((get : EStateM ε σ σ) >>= f) :=
  fun s hs => h s hs s hs

theorem keeps_modify {P : σ → Prop} {f : σ → σ} (h : ∀ s, P s → P (f s)) :
    Keeps P (modify f : EStateM ε σ PUnit) :=
  fun s hs => h s hs

theorem Keeps.ite {P : σ → Prop} {c : Prop} [Decidable c] {m n : EStateM ε σ α} (hm : Keeps P m)
    (hn : Keeps P n) :
    Keeps P (if c then m else n) := by
  by_cases h : c
  · rwa [if_pos h]
  · rwa [if_neg h]

theorem keeps_mapM {P : σ → Prop} {op : ι → EStateM ε σ α} (items : List ι)
    (h : ∀ i ∈ items, Keeps P (op i)) :
    Keeps P (items.mapM op) := by
  induction items with
  | nil => exact keeps_pure P []
  | cons first rest ih =>
    rw [List.mapM_cons]
    exact (h first List.mem_cons_self).bind fun a =>
        (ih fun i hi => h i (List.mem_cons_of_mem _ hi)).bind fun as =>
      keeps_pure P (a :: as)

theorem Keeps.onPart {P : σ → Prop} {Q : τ → Prop} {part : σ → τ} {put : σ → τ → σ}
    {m : EStateM ε τ α} (h : Keeps Q m) (hpart : ∀ s, P s → Q (part s))
    (hput : ∀ s t, P s → Q t → P (put s t)) : Keeps P (Program.onPart part put m) := by
  intro s hs
  have hend := h (part s) (hpart s hs)
  rw [Program.onPart]
  cases hrun : m (part s) with
  | ok a t =>
    rw [hrun] at hend
    exact hput s t hs hend
  | error e t =>
    rw [hrun] at hend
    exact hput s t hs hend

/-- Where `m` ends with a value, `m'` ends with a related one; where it stops, `E` relates the ends.
-/
def Halts (R E : σ → σ' → Prop) (V : α → α' → Prop) (m : EStateM ε σ α) (m' : EStateM ε' σ' α') :
    Prop :=
  ∀ s s', R s s' → Post (fun a t => ∃ b t', m' s' = .ok b t' ∧ V a b ∧
    R t t') (fun _ t => E t (endState (m' s'))) (m s)

variable {R E : σ → σ' → Prop} {V : α → α' → Prop} {W : β → β' → Prop}

theorem Halts.of_ok {m : EStateM ε σ α} {m' : EStateM ε' σ' α'} (h : Halts R E V m m') {s t : σ}
    {s' : σ'} {a : α} (hs : R s s') (hrun : m s = .ok a t) :
    ∃ b t', m' s' = .ok b t' ∧ V a b ∧ R t t' := by
  have hends := h s s' hs
  rwa [hrun] at hends

theorem Halts.of_error {m : EStateM ε σ α} {m' : EStateM ε' σ' α'} (h : Halts R E V m m') {s t : σ}
    {s' : σ'} {e : ε} (hs : R s s') (hrun : m s = .error e t) : E t (Program.endState (m' s')) := by
  have hends := h s s' hs
  rwa [hrun] at hends

theorem halts_pure {a : α} {b : α'} (h : V a b) :
    Halts R E V (pure a : EStateM ε σ α) (pure b : EStateM ε' σ' α') :=
  fun _ s' hs => ⟨b, s', rfl, h, hs⟩

theorem halts_throw (hE : ∀ s s', R s s' → E s s') (e : ε) (e' : ε') :
    Halts R E V (throw e : EStateM ε σ α) (throw e' : EStateM ε' σ' α') :=
  fun s s' hs => hE s s' hs

theorem halts_get : Halts R E R (get : EStateM ε σ σ) (get : EStateM ε' σ' σ') :=
  fun _ s' hs => ⟨s', s', rfl, hs, hs⟩

theorem halts_get_bind {f : σ → EStateM ε σ β} {f' : σ' → EStateM ε' σ' β'}
    (hf : ∀ s s', R s s' → Halts R E W (f s) (f' s')) :
    Halts R E W ((get : EStateM ε σ σ) >>= f) (get >>= f') :=
  fun s s' hs => hf s s' hs s s' hs

theorem halts_set {s : σ} {s' : σ'} (h : R s s') :
    Halts R E (fun _ _ => True) (set s : EStateM ε σ PUnit) (set s' : EStateM ε' σ' PUnit) :=
  fun _ _ _ => ⟨⟨⟩, s', rfl, trivial, h⟩

theorem Halts.bind {m : EStateM ε σ α} {m' : EStateM ε' σ' α'} {f : α → EStateM ε σ β}
    {f' : α' → EStateM ε' σ' β'} (hm : Halts R E V m m')
    (hf : ∀ a b, V a b → Halts R E W (f a) (f' b)) (hlasts : ∀ t b, Keeps (E t) (f' b)) :
    Halts R E W (m >>= f) (m' >>= f') := by
  intro s s' hs
  have hends := hm s s' hs
  cases hrun : m s with
  | ok a t =>
    rw [hrun] at hends
    obtain ⟨b, t', hrun', hab, ht⟩ := hends
    rw [bind_ok hrun, bind_ok hrun']
    exact hf a b hab t t' ht
  | error e t =>
    rw [hrun] at hends
    rw [bind_error hrun]
    replace hends : E t (Program.endState (m' s')) := hends
    show E t (Program.endState ((m' >>= f') s'))
    rw [bind_apply]
    cases hrun' : m' s' with
    | ok b t' =>
      rw [hrun'] at hends
      exact (hlasts t b).endState hends
    | error e' t' =>
      rw [hrun'] at hends
      exact hends

theorem Halts.ite {c c' : Prop} [Decidable c] [Decidable c'] (hc : c ↔ c') {m n : EStateM ε σ α}
    {m' n' : EStateM ε' σ' α'} (hm : c → Halts R E V m m') (hn : ¬ c → Halts R E V n n') :
    Halts R E V (if c then m else n) (if c' then m' else n') := by
  by_cases h : c
  · rw [if_pos h, if_pos (hc.mp h)]
    exact hm h
  · rw [if_neg h, if_neg fun h' => h (hc.mpr h')]
    exact hn h

theorem halts_mapM {op : ι → EStateM ε σ α} {op' : ι → EStateM ε' σ' α} (items : List ι)
    (h : ∀ i ∈ items, Halts R E Eq (op i) (op' i))
    (hlasts : ∀ t, ∀ i ∈ items, Keeps (E t) (op' i)) :
    Halts R E Eq (items.mapM op) (items.mapM op') := by
  induction items with
  | nil => exact halts_pure rfl
  | cons first rest ih =>
    have hlater : ∀ t, Keeps (E t) (rest.mapM op') := fun t =>
      keeps_mapM rest fun i hi => hlasts t i (List.mem_cons_of_mem _ hi)
    rw [List.mapM_cons, List.mapM_cons]
    apply (h first List.mem_cons_self).bind
    · intro a b hab
      apply Halts.bind (ih (fun i hi => h i (List.mem_cons_of_mem _ hi)) fun t i hi =>
        hlasts t i (List.mem_cons_of_mem _ hi))
      · intro as bs habs
        exact halts_pure (by rw [hab, habs])
      · exact fun t bs => keeps_pure (E t) (b :: bs)
    · exact fun t b => (hlater t).bind fun bs => keeps_pure (E t) (b :: bs)

/-- Programs on a component of the states. -/
theorem Halts.onPart {part : σ → τ} {put : σ → τ → σ} {part' : σ' → τ'} {put' : σ' → τ' → σ'}
    {Q F : τ → τ' → Prop} {m : EStateM ε τ α} {m' : EStateM ε' τ' α'} (h : Halts Q F V m m')
    (hpart : ∀ s s', R s s' → Q (part s) (part' s'))
    (hput : ∀ s s' t t', R s s' → Q t t' → R (put s t) (put' s' t'))
    (hstop : ∀ s s' t t', R s s' → F t t' → E (put s t) (put' s' t')) :
    Halts R E V (Program.onPart part put m) (Program.onPart part' put' m') := by
  intro s s' hs
  have hends := h (part s) (part' s') (hpart s s' hs)
  cases hm : m (part s) with
  | ok a t =>
    rw [hm] at hends
    obtain ⟨b, t', hm', hab, ht⟩ := hends
    rw [onPart_ok hm]
    exact ⟨b, put' s' t', onPart_ok hm', hab, hput s s' t t' hs ht⟩
  | error e t =>
    rw [hm] at hends
    rw [onPart_error hm]
    replace hends : F t (Program.endState (m' (part' s'))) := hends
    show E (put s t) (Program.endState (Program.onPart part' put' m' s'))
    rw [Program.onPart]
    cases hm' : m' (part' s') with
    | ok b t' =>
      rw [hm'] at hends
      exact hstop s s' t t' hs hends
    | error e' t' =>
      rw [hm'] at hends
      exact hstop s s' t t' hs hends

end Program
