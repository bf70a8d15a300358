import Pgzf.Library.Program

/-!
# Two programs side by side

`Related R V m m'` says that from states related by `R` the two programs end the same way, in
related states again: both with a value, and then the values are related by `V`, or both with the
same exit. The rules follow the constructors of a program, so a proof that two runs agree goes
through the text of the program once, whatever the two states have in common. `EndsUnless F`
compares one run with another that the exits in `F` cannot happen to.
-/

namespace Program

variable {ε σ σ' τ τ' ι α α' β β' : Type}

/-- Two ends of a run: the same exit, or related values, and related states. -/
def Ends (R : σ → σ' → Prop) (V : α → α' → Prop) :
    EStateM.Result ε σ α → EStateM.Result ε σ' α' → Prop
  | .ok a s, .ok b s' => V a b ∧ R s s'
  | .error e s, .error e' s' => e = e' ∧ R s s'
  | _, _ => False

/-- From related states the programs end the same way. -/
def Related (R : σ → σ' → Prop) (V : α → α' → Prop) (m : EStateM ε σ α) (m' : EStateM ε σ' α') :
    Prop :=
  ∀ s s', R s s' → Ends R V (m s) (m' s')

variable {R : σ → σ' → Prop} {V : α → α' → Prop} {W : β → β' → Prop}

theorem Ends.of_ok {a : α} {s : σ} {end' : EStateM.Result ε σ' α'} (h : Ends R V (.ok a s) end') :
    ∃ b s', end' = .ok b s' ∧ V a b ∧ R s s' := by
  cases end' with
  | ok b s' => exact ⟨b, s', rfl, h⟩
  | error e' s' => exact absurd h id

theorem Ends.of_error {e : ε} {s : σ} {end' : EStateM.Result ε σ' α'}
    (h : Ends R V (.error e s) end') :
    ∃ s', end' = .error e s' ∧ R s s' := by
  cases end' with
  | ok b s' => exact absurd h id
  | error e' s' =>
    obtain ⟨rfl, hs⟩ := h
    exact ⟨s', rfl, hs⟩

theorem Ends.of_ok_right {b : α'} {s' : σ'} {end₁ : EStateM.Result ε σ α}
    (h : Ends R V end₁ (.ok b s')) :
    ∃ a s, end₁ = .ok a s ∧ V a b ∧ R s s' := by
  cases end₁ with
  | ok a s => exact ⟨a, s, rfl, h⟩
  | error e s => exact absurd h id

theorem Ends.mono {R' : σ → σ' → Prop} {end₁ : EStateM.Result ε σ α} {end₂ : EStateM.Result ε σ' α'}
    (h : Ends R V end₁ end₂) (hR : ∀ s s', R s s' → R' s s') : Ends R' V end₁ end₂ := by
  cases end₁ with
  | ok a s =>
    obtain ⟨b, s', rfl, hab, hs⟩ := h.of_ok
    exact ⟨hab, hR s s' hs⟩
  | error e s =>
    obtain ⟨s', rfl, hs⟩ := h.of_error
    exact ⟨rfl, hR s s' hs⟩

theorem related_pure {a : α} {b : α'} (h : V a b) :
    Related R V (pure a : EStateM ε σ α) (pure b : EStateM ε σ' α') :=
  fun _ _ hs => ⟨h, hs⟩

theorem related_throw (V : α → α' → Prop) (e : ε) :
    Related R V (throw e : EStateM ε σ α) (throw e : EStateM ε σ' α') :=
  fun _ _ hs => ⟨rfl, hs⟩

theorem related_get : Related R R (get : EStateM ε σ σ) (get : EStateM ε σ' σ') :=
  fun _ _ hs => ⟨hs, hs⟩

theorem related_set {s : σ} {s' : σ'} (h : R s s') :
    Related R (fun _ _ => True) (set s : EStateM ε σ PUnit) (set s' : EStateM ε σ' PUnit) :=
  fun _ _ _ => ⟨trivial, h⟩

theorem related_modify {f : σ → σ} {f' : σ' → σ'} (h : ∀ s s', R s s' → R (f s) (f' s')) :
    Related R (fun _ _ => True) (modify f : EStateM ε σ PUnit) (modify f' : EStateM ε σ' PUnit) :=
  fun s s' hs => ⟨trivial, h s s' hs⟩

theorem Related.bind {m : EStateM ε σ α} {m' : EStateM ε σ' α'} {f : α → EStateM ε σ β}
    {f' : α' → EStateM ε σ' β'} (hm : Related R V m m')
    (hf : ∀ a b, V a b → Related R W (f a) (f' b)) : Related R W (m >>= f) (m' >>= f') := by
  intro s s' hs
  have hends := hm s s' hs
  rw [bind_apply, bind_apply]
  cases hrun : m s with
  | ok a t =>
    rw [hrun] at hends
    obtain ⟨b, t', hrun', hab, ht⟩ := hends.of_ok
    rw [hrun']
    exact hf a b hab t t' ht
  | error e t =>
    rw [hrun] at hends
    obtain ⟨t', hrun', ht⟩ := hends.of_error
    rw [hrun']
    exact ⟨rfl, ht⟩

theorem Related.ite {c c' : Prop} [Decidable c] [Decidable c'] (hc : c ↔ c') {m n : EStateM ε σ α}
    {m' n' : EStateM ε σ' α'} (hm : c → Related R V m m') (hn : ¬ c → Related R V n n') :
    Related R V (if c then m else n) (if c' then m' else n') := by
  by_cases h : c
  · rw [if_pos h, if_pos (hc.mp h)]
    exact hm h
  · rw [if_neg h, if_neg fun h' => h (hc.mpr h')]
    exact hn h

theorem related_mapM {op : ι → EStateM ε σ α} {op' : ι → EStateM ε σ' α} (items : List ι)
    (h : ∀ i ∈ items, Related R Eq (op i) (op' i)) :
    Related R Eq (items.mapM op) (items.mapM op') := by
  induction items with
  | nil => exact related_pure rfl
  | cons first rest ih =>
    rw [List.mapM_cons, List.mapM_cons]
    apply (h first List.mem_cons_self).bind
    rintro a _ rfl
    apply (ih fun i hi => h i (List.mem_cons_of_mem _ hi)).bind
    rintro as _ rfl
    exact related_pure rfl

theorem Related.onPart {part : σ → τ} {put : σ → τ → σ} {part' : σ' → τ'} {put' : σ' → τ' → σ'}
    {Q : τ → τ' → Prop} {m : EStateM ε τ α} {m' : EStateM ε τ' α'} (h : Related Q V m m')
    (hpart : ∀ s s', R s s' → Q (part s) (part' s'))
    (hput : ∀ s s' t t', R s s' → Q t t' → R (put s t) (put' s' t')) :
    Related R V (Program.onPart part put m) (Program.onPart part' put' m') := by
  intro s s' hs
  have hends := h (part s) (part' s') (hpart s s' hs)
  cases hrun : m (part s) with
  | ok a t =>
    rw [hrun] at hends
    obtain ⟨b, t', hrun', hab, ht⟩ := hends.of_ok
    rw [onPart_ok hrun, onPart_ok hrun']
    exact ⟨hab, hput s s' t t' hs ht⟩
  | error e t =>
    rw [hrun] at hends
    obtain ⟨t', hrun', ht⟩ := hends.of_error
    rw [onPart_error hrun, onPart_error hrun']
    exact ⟨rfl, hput s s' t t' hs ht⟩

/-! ### But for some exits of the first program -/

section Unless

variable {F : ε → Prop} {Q : σ → σ' → Prop}

/-- The first run ends with an exit in `F`, or both end the same way. -/
def EndsUnless (F : ε → Prop) (R : σ → σ' → Prop) (V : α → α' → Prop) (end₁ : EStateM.Result ε σ α)
    (end₂ : EStateM.Result ε σ' α') : Prop :=
  (∃ e s, end₁ = .error e s ∧ F e) ∨ Ends R V end₁ end₂

theorem EndsUnless.of_ok {a : α} {s : σ} {end₂ : EStateM.Result ε σ' α'}
    (h : EndsUnless F R V (.ok a s) end₂) :
    ∃ b s', end₂ = .ok b s' ∧ V a b ∧ R s s' := by
  rcases h with ⟨e, t, hend, -⟩ | hends
  · exact absurd hend (by simp)
  · exact hends.of_ok

theorem EndsUnless.of_error {e : ε} {s : σ} {end₂ : EStateM.Result ε σ' α'}
    (h : EndsUnless F R V (.error e s) end₂) (hF : ¬ F e) : ∃ s', end₂ = .error e s' ∧ R s s' := by
  rcases h with ⟨e', t, hend, he⟩ | hends
  · obtain ⟨rfl, -⟩ := EStateM.Result.error.inj hend
    exact absurd he hF
  · exact hends.of_error

theorem EndsUnless.mono {R' : σ → σ' → Prop} {end₁ : EStateM.Result ε σ α}
    {end₂ : EStateM.Result ε σ' α'} (h : EndsUnless F R V end₁ end₂)
    (hR : ∀ s s', R s s' → R' s s') : EndsUnless F R' V end₁ end₂ :=
  h.imp_right fun hends => hends.mono hR

theorem EndsUnless.bind {m : EStateM ε σ α} {m' : EStateM ε σ' α'} {f : α → EStateM ε σ β}
    {f' : α' → EStateM ε σ' β'} {s : σ} {s' : σ'} (hm : EndsUnless F Q V (m s) (m' s'))
    (hQ : ∀ t t', Q t t' → R t t')
    (hf : ∀ a b t t', V a b → Q t t' → EndsUnless F R W (f a t) (f' b t')) :
    EndsUnless F R W ((m >>= f) s) ((m' >>= f') s') := by
  cases hrun : m s with
  | ok a t =>
    rw [hrun] at hm
    obtain ⟨b, t', hrun', hab, ht⟩ := hm.of_ok
    rw [bind_ok hrun, bind_ok hrun']
    exact hf a b t t' hab ht
  | error e t =>
    rw [bind_error hrun]
    by_cases hF : F e
    · exact .inl ⟨e, t, rfl, hF⟩
    · rw [hrun] at hm
      obtain ⟨t', hrun', ht⟩ := hm.of_error hF
      rw [bind_error hrun']
      exact .inr ⟨rfl, hQ t t' ht⟩

theorem EndsUnless.ite {c c' : Prop} [Decidable c] [Decidable c'] (hc : c ↔ c')
    {m n : EStateM ε σ α} {m' n' : EStateM ε σ' α'} {s : σ} {s' : σ'}
    (hm : c → EndsUnless F R V (m s) (m' s')) (hn : ¬ c → EndsUnless F R V (n s) (n' s')) :
    EndsUnless F R V ((if c then m else n) s) ((if c' then m' else n') s') := by
  by_cases h : c
  · rw [if_pos h, if_pos (hc.mp h)]
    exact hm h
  · rw [if_neg h, if_neg fun h' => h (hc.mpr h')]
    exact hn h

theorem EndsUnless.onPart {part : σ → τ} {put : σ → τ → σ} {part' : σ' → τ'} {put' : σ' → τ' → σ'}
    {S : τ → τ' → Prop} {m : EStateM ε τ α} {m' : EStateM ε τ' α'} {s : σ} {s' : σ'}
    (h : EndsUnless F S V (m (part s)) (m' (part' s')))
    (hput : ∀ t t', S t t' → R (put s t) (put' s' t')) :
    EndsUnless F R V (Program.onPart part put m s) (Program.onPart part' put' m' s') := by
  cases hrun : m (part s) with
  | ok a t =>
    rw [hrun] at h
    obtain ⟨b, t', hrun', hab, ht⟩ := h.of_ok
    rw [onPart_ok hrun, onPart_ok hrun']
    exact .inr ⟨hab, hput t t' ht⟩
  | error e t =>
    rw [onPart_error hrun]
    by_cases hF : F e
    · exact .inl ⟨e, _, rfl, hF⟩
    · rw [hrun] at h
      obtain ⟨t', hrun', ht⟩ := h.of_error hF
      rw [onPart_error hrun']
      exact .inr ⟨rfl, hput t t' ht⟩

end Unless

/-! ### But for what the exit is -/

section Alike

variable {S : σ → ε → ε → Prop} {Inv : σ → Prop}

def AlikeUpTo (S : σ → ε → ε → Prop) : EStateM.Result ε σ α → EStateM.Result ε σ α → Prop
  | .ok a s, .ok b s' => a = b ∧ s = s'
  | .error e s, .error e' s' => S s e e' ∧ s = s'
  | _, _ => False

theorem AlikeUpTo.refl (hS : ∀ s e, S s e e) (result : EStateM.Result ε σ α) :
    AlikeUpTo S result result := by
  cases result with
  | ok a s => exact ⟨rfl, rfl⟩
  | error e s => exact ⟨hS s e, rfl⟩

theorem AlikeUpTo.bind {m m' : EStateM ε σ α} {f f' : α → EStateM ε σ β} {s : σ}
    (hm : AlikeUpTo S (m s) (m' s))
    (hf : ∀ a t, m' s = .ok a t → AlikeUpTo S (f a t) (f' a t)) :
    AlikeUpTo S ((m >>= f) s) ((m' >>= f') s) := by
  rw [bind_apply, bind_apply]
  cases hrun : m s with
  | ok a t =>
    cases hrun' : m' s with
    | ok a' t' =>
      rw [hrun, hrun'] at hm
      obtain ⟨rfl, rfl⟩ := hm
      exact hf a t hrun'
    | error e' t' =>
      rw [hrun, hrun'] at hm
      exact hm.elim
  | error e t =>
    cases hrun' : m' s with
    | ok a' t' =>
      rw [hrun, hrun'] at hm
      exact hm.elim
    | error e' t' =>
      rw [hrun, hrun'] at hm
      exact hm

theorem AlikeUpTo.ite {c : Prop} [Decidable c] {m m' n n' : EStateM ε σ α} {s : σ}
    (hm : AlikeUpTo S (m s) (m' s)) (hn : AlikeUpTo S (n s) (n' s)) :
    AlikeUpTo S ((if c then m else n) s) ((if c then m' else n') s) := by
  by_cases hc : c
  · rwa [if_pos hc, if_pos hc]
  · rwa [if_neg hc, if_neg hc]

variable (Inv) in
/-- By induction on the list; `Inv` is what the items keep of the state. -/
theorem alike_mapM (hS : ∀ s e, S s e e) {op op' : ι → EStateM ε σ α} (items : List ι)
    (hkeeps : ∀ i ∈ items, Keeps Inv (op' i))
    (h : ∀ i ∈ items, ∀ s, Inv s → AlikeUpTo S (op i s) (op' i s)) {s : σ} (hs : Inv s) :
    AlikeUpTo S (items.mapM op s) (items.mapM op' s) := by
  induction items generalizing s with
  | nil => exact .refl hS _
  | cons first rest ih =>
    rw [List.mapM_cons, List.mapM_cons]
    apply (h first List.mem_cons_self s hs).bind
    intro a t hfirst
    have ht : Inv t := (hkeeps first List.mem_cons_self).of_ok hs hfirst
    apply (ih (fun i hi => hkeeps i (List.mem_cons_of_mem _ hi))
      (fun i hi => h i (List.mem_cons_of_mem _ hi)) ht).bind
    exact fun _ _ _ => .refl hS _

end Alike

end Program
