import Mathlib.Algebra.GroupWithZero.Nat
import Mathlib.Algebra.Order.Group.Nat
import Mathlib.Algebra.Order.BigOperators.Group.List
import Mathlib.Logic.Relation
import Pgzf.Library.Program

/-!
# A list that is mapped by several workers

The list is cut into pieces, and these again. A piece is mapped in order by a worker with a state of
its own, and the workers take their turns in any order. An item that fails saves its error, unless
there is one already, and what is not done by then may be given up.

Where the answer of a worker depends on the item alone, the order does not show: the result is that
of the list mapped in order, or the error of an item that fails.
-/

namespace WorkSplitting

variable {σ α β ε : Type}

structure Job (σ α β ε : Type) where
  init : σ
  work : σ → α → Except ε β × σ

inductive Piece (σ α β : Type) where
  | waiting (todo : List α)
  | busy (done : List β) (todo : List α) (worker : σ)
  | givenUp

def Piece.output : Piece σ α β → List β
  | .busy done _ _ => done
  | _ => []

def Piece.Finished : Piece σ α β → Prop
  | .waiting todo => todo = []
  | .busy _ todo _ => todo = []
  | .givenUp => True

/-- The pieces in their order, and the error that has been saved. -/
structure Pool (σ α β ε : Type) where
  pieces : List (Piece σ α β)
  saved : Option ε

def Pool.start (items : List α) : Pool σ α β ε := ⟨[.waiting items], none⟩

def Pool.Finished (pool : Pool σ α β ε) : Prop := ∀ piece ∈ pool.pieces, piece.Finished

/-- The outputs in the order of the list, unless an error has been saved. -/
def Pool.result (pool : Pool σ α β ε) : Except ε (List β) :=
  match pool.saved with
  | some e => .error e
  | none => .ok (pool.pieces.flatMap Piece.output)

/-- What can become of one piece, and of the saved error. -/
inductive Turn (job : Job σ α β ε) : Option ε → Piece σ α β → Option ε → List (Piece σ α β) → Prop
  | split {saved : Option ε} {left right : List α} (hleft : left ≠ []) (hright : right ≠ []) :
      Turn job saved (.waiting (left ++ right)) saved [.waiting left, .waiting right]
  | begin {saved : Option ε} {todo : List α} (htodo : todo ≠ []) :
      Turn job saved (.waiting todo) saved [.busy [] todo job.init]
  | item {saved : Option ε} {done : List β} {x : α} {todo : List α} {s s' : σ} {y : β}
    (hwork : job.work s x = (.ok y, s')) :
      Turn job saved (.busy done (x :: todo) s) saved [.busy (done ++ [y]) todo s']
  | failure {saved : Option ε} {done : List β} {x : α} {todo : List α} {s s' : σ} {e : ε}
      (hwork : job.work s x = (.error e, s')) : Turn job saved (.busy done (x :: todo) s)
        (saved.or (some e)) [.givenUp]
  | giveUp {e : ε} {done : List β} {x : α} {todo : List α} {s : σ} :
      Turn job (some e) (.busy done (x :: todo) s) (some e) [.givenUp]

inductive Step (job : Job σ α β ε) : Pool σ α β ε → Pool σ α β ε → Prop
  | turn {before after pieces : List (Piece σ α β)} {piece : Piece σ α β} {saved saved' : Option ε}
      (h : Turn job saved piece saved' pieces) : Step job ⟨before ++ piece :: after,
        saved⟩ ⟨before ++ (pieces ++ after), saved'⟩

abbrev Steps (job : Job σ α β ε) : Pool σ α β ε → Pool σ α β ε → Prop :=
  Relation.ReflTransGen (Step job)

/-- What the workers may have come to when all of them are done. -/
def Outcome (job : Job σ α β ε) (items : List α) (result : Except ε (List β)) : Prop :=
  ∃ pool, Steps job (.start items) pool ∧ pool.Finished ∧ pool.result = result

/-- Whatever a worker has done before, its answer is that of `g`. -/
structure Job.Computes (job : Job σ α β ε) (g : α → Except ε β) (Good : σ → Prop) : Prop where
  init : Good job.init
  answer : ∀ s x, Good s → (job.work s x).1 = g x
  keeps : ∀ s x, Good s → Good (job.work s x).2

variable {job : Job σ α β ε} {g : α → Except ε β} {Good : σ → Prop} {items : List α}
  {pool pool' : Pool σ α β ε}

/-! ### What the pieces cover -/

def Piece.Covers (g : α → Except ε β) (Good : σ → Prop) (part : List α) : Piece σ α β → Prop
  | .waiting todo => todo = part
  | .busy done todo s => Good s ∧ ∃ taken, taken.map g = done.map .ok ∧ taken ++ todo = part
  | .givenUp => True

/-- The pieces have come from these items, in this order. -/
def Covered (g : α → Except ε β) (Good : σ → Prop) : List α → List (Piece σ α β) → Prop
  | items, [] => items = []
  | items, piece :: pieces =>
    ∃ part rest, part ++ rest = items ∧ piece.Covers g Good part ∧ Covered g Good rest pieces

theorem covered_append {before after : List (Piece σ α β)} :
    Covered g Good items (before ++ after) ↔
      ∃ left right, left ++ right = items ∧ Covered g Good left before ∧
        Covered g Good right after := by
  induction before generalizing items with
  | nil =>
    constructor
    · intro h
      exact ⟨[], items, rfl, rfl, h⟩
    · rintro ⟨left, right, rfl, rfl, h⟩
      exact h
  | cons piece before ih =>
    constructor
    · rintro ⟨part, rest, rfl, hpiece, hrest⟩
      obtain ⟨left, right, rfl, hleft, hright⟩ := ih.mp hrest
      exact ⟨part ++ left, right, List.append_assoc _ _ _, ⟨part, left, rfl, hpiece, hleft⟩, hright⟩
    · rintro ⟨left, right, rfl, ⟨part, rest, rfl, hpiece, hrest⟩, hright⟩
      exact ⟨part, rest ++ right, (List.append_assoc _ _ _).symm, hpiece, ih.mpr ⟨rest, right, rfl,
        hrest, hright⟩⟩

theorem covered_singleton {piece : Piece σ α β} (h : piece.Covers g Good items) :
    Covered g Good items [piece] :=
  ⟨items, [], List.append_nil _, h, rfl⟩

/-- The pieces come from the list, the saved error is that of an item, and nothing is given up
before there is one. -/
structure Sound (g : α → Except ε β) (Good : σ → Prop) (items : List α) (pool : Pool σ α β ε) :
    Prop where
  covered : Covered g Good items pool.pieces
  saved : ∀ e, pool.saved = some e → ∃ x ∈ items, g x = .error e
  complete : pool.saved = none → .givenUp ∉ pool.pieces

theorem sound_start (g : α → Except ε β) (Good : σ → Prop) (items : List α) :
    Sound g Good items (.start items : Pool σ α β ε) :=
  ⟨covered_singleton rfl, fun _ h => absurd h (by simp [Pool.start]), fun _ => by simp [Pool.start]⟩

theorem Turn.covered (hjob : job.Computes g Good) {saved saved' : Option ε} {piece : Piece σ α β}
    {pieces : List (Piece σ α β)} (h : Turn job saved piece saved' pieces) {part : List α}
    (hpiece : piece.Covers g Good part) :
    Covered g Good part pieces := by
  cases h with
  | split hleft hright =>
    obtain rfl := hpiece
    exact ⟨_, _, rfl, rfl, covered_singleton rfl⟩
  | begin htodo =>
    obtain rfl := hpiece
    exact covered_singleton ⟨hjob.init, [], rfl, rfl⟩
  | @item _ done x todo s s' y hwork =>
    obtain ⟨hs, taken, htaken, rfl⟩ := hpiece
    have hanswer := hjob.answer s x hs
    have hkeeps := hjob.keeps s x hs
    rw [hwork] at hanswer hkeeps
    refine covered_singleton ⟨hkeeps, taken ++ [x], ?_, List.append_assoc _ _ _⟩
    rw [List.map_append, List.map_append, htaken, List.map_singleton, List.map_singleton, ← hanswer]
  | failure hwork => exact covered_singleton trivial
  | giveUp => exact covered_singleton trivial

theorem Turn.saved (hjob : job.Computes g Good) {saved saved' : Option ε} {piece : Piece σ α β}
    {pieces : List (Piece σ α β)} (h : Turn job saved piece saved' pieces) {part : List α}
    (hpiece : piece.Covers g Good part) {e : ε} (he : saved' = some e) :
    saved = some e ∨ ∃ x ∈ part, g x = .error e := by
  cases h with
  | split hleft hright => exact .inl he
  | begin htodo => exact .inl he
  | item hwork => exact .inl he
  | @failure _ done x todo s s' e' hwork =>
    obtain ⟨hs, taken, -, rfl⟩ := hpiece
    have hanswer := hjob.answer s x hs
    rw [hwork] at hanswer
    cases saved with
    | some e'' => exact .inl he
    | none =>
      obtain rfl : e' = e := Option.some.inj he
      exact .inr ⟨x, List.mem_append_right _ List.mem_cons_self, hanswer.symm⟩
  | giveUp => exact .inl he

theorem Turn.complete {saved saved' : Option ε} {piece : Piece σ α β} {pieces : List (Piece σ α β)}
    (h : Turn job saved piece saved' pieces) (hnone : saved' = none) :
    saved = none ∧ .givenUp ∉ pieces := by
  cases h with
  | split hleft hright => exact ⟨hnone, by simp⟩
  | begin htodo => exact ⟨hnone, by simp⟩
  | item hwork => exact ⟨hnone, by simp⟩
  | failure hwork => exact absurd hnone (by simp)
  | giveUp => exact absurd hnone (by simp)

theorem Step.sound (hjob : job.Computes g Good) (h : Step job pool pool')
    (hpool : Sound g Good items pool) :
    Sound g Good items pool' := by
  cases h with
  | @turn before after pieces piece saved saved' h =>
    obtain ⟨left, right, rfl, hleft, part, rest, rfl, hpiece, hrest⟩ :=
      covered_append.mp hpool.covered
    refine ⟨?_, ?_, ?_⟩
    · exact covered_append.mpr ⟨left, part ++ rest, rfl, hleft,
        covered_append.mpr ⟨part, rest, rfl, h.covered hjob hpiece, hrest⟩⟩
    · intro e he
      rcases h.saved hjob hpiece he with hsaved | ⟨x, hx, hfails⟩
      · exact hpool.saved e hsaved
      · exact ⟨x, List.mem_append_right _ (List.mem_append_left _ hx), hfails⟩
    · intro hnone
      obtain ⟨hsaved, hpieces⟩ := h.complete hnone
      have hothers := hpool.complete hsaved
      simp only [List.mem_append, List.mem_cons, not_or] at hothers ⊢
      exact ⟨hothers.1, hpieces, hothers.2.2⟩

/-- By induction on the run. -/
theorem Steps.sound (hjob : job.Computes g Good) (h : Steps job pool pool')
    (hpool : Sound g Good items pool) :
    Sound g Good items pool' := by
  induction h with
  | refl => exact hpool
  | tail _ hstep ih => exact hstep.sound hjob ih

/-! ### What the workers come to -/

theorem mapM_eq_ok_of_map {ys : List β} (h : items.map g = ys.map .ok) : items.mapM g = .ok ys := by
  induction items generalizing ys with
  | nil =>
    obtain rfl := List.map_eq_nil_iff.mp h.symm
    rfl
  | cons x rest ih =>
    cases ys with
    | nil => exact absurd h (by simp)
    | cons y ys =>
      rw [List.map_cons, List.map_cons, List.cons.injEq] at h
      rw [List.mapM_cons, h.1, ih h.2]
      rfl

/-- Pieces that are done, none of them given up. -/
theorem Covered.map_eq {pieces : List (Piece σ α β)} (h : Covered g Good items pieces)
    (hfinished : ∀ piece ∈ pieces, piece.Finished) (hcomplete : .givenUp ∉ pieces) :
    items.map g = (pieces.flatMap Piece.output).map .ok := by
  induction pieces generalizing items with
  | nil =>
    obtain rfl := h
    rfl
  | cons piece pieces ih =>
    obtain ⟨part, rest, rfl, hpiece, hrest⟩ := h
    have hdone := hfinished piece List.mem_cons_self
    rw [List.mem_cons, not_or] at hcomplete
    rw [List.map_append, List.flatMap_cons, List.map_append,
      ih hrest (fun p hp => hfinished p (List.mem_cons_of_mem _ hp)) hcomplete.2]
    congr 1
    cases piece with
    | waiting todo =>
      obtain rfl : todo = [] := hdone
      obtain rfl := hpiece
      rfl
    | busy done todo s =>
      obtain rfl : todo = [] := hdone
      obtain ⟨-, taken, htaken, rfl⟩ := hpiece
      rw [List.append_nil, htaken]
      rfl
    | givenUp => exact absurd rfl hcomplete.1

theorem Outcome.of_ok (hjob : job.Computes g Good) {ys : List β} (h : Outcome job items (.ok ys)) :
    items.mapM g = .ok ys := by
  obtain ⟨pool, hsteps, hfinished, hresult⟩ := h
  have hsound := hsteps.sound hjob (sound_start g Good items)
  rw [Pool.result] at hresult
  cases hsaved : pool.saved with
  | some e =>
    rw [hsaved] at hresult
    exact absurd hresult (by simp)
  | none =>
    rw [hsaved] at hresult
    rw [← Except.ok.inj hresult]
    exact mapM_eq_ok_of_map (hsound.covered.map_eq hfinished (hsound.complete hsaved))

theorem Outcome.of_error (hjob : job.Computes g Good) {e : ε} (h : Outcome job items (.error e)) :
    ∃ x ∈ items, g x = .error e := by
  obtain ⟨pool, hsteps, hfinished, hresult⟩ := h
  have hsound := hsteps.sound hjob (sound_start g Good items)
  rw [Pool.result] at hresult
  cases hsaved : pool.saved with
  | some e' =>
    rw [hsaved] at hresult
    exact hsound.saved e (hsaved.trans (congrArg some (Except.error.inj hresult)))
  | none =>
    rw [hsaved] at hresult
    exact absurd hresult (by simp)

theorem Outcome.eq_of_mapM_ok (hjob : job.Computes g Good) {ys : List β}
    (hmap : items.mapM g = .ok ys) {result : Except ε (List β)} (h : Outcome job items result) :
    result = .ok ys := by
  cases result with
  | ok ys' => rw [← hmap, h.of_ok hjob]
  | error e =>
    obtain ⟨x, hx, hfails⟩ := h.of_error hjob
    obtain ⟨y, hy⟩ := Program.of_mapM_except_ok hmap x hx
    exact absurd (hfails.symm.trans hy) (by simp)

theorem Outcome.exists_error (hjob : job.Computes g Good) {e : ε} (hmap : items.mapM g = .error e)
    {result : Except ε (List β)} (h : Outcome job items result) : ∃ e', result = .error e' := by
  cases result with
  | ok ys => exact absurd ((h.of_ok hjob).symm.trans hmap) (by simp)
  | error e' => exact ⟨e', rfl⟩

/-! ### Every run ends -/

/-- How many turns a piece can still take: it is cut, each part is begun, and the items are done one
by one. -/
def Piece.turns : Piece σ α β → Nat
  | .waiting todo => 3 * todo.length - 1
  | .busy _ todo _ => todo.length
  | .givenUp => 0

def Pool.turns (pool : Pool σ α β ε) : Nat := (pool.pieces.map Piece.turns).sum

theorem Turn.turns_lt {saved saved' : Option ε} {piece : Piece σ α β} {pieces : List (Piece σ α β)}
    (h : Turn job saved piece saved' pieces) : (pieces.map Piece.turns).sum < piece.turns := by
  cases h with
  | split hleft hright =>
    have := List.length_pos_iff.mpr hleft
    have := List.length_pos_iff.mpr hright
    simp only [List.map_cons, List.map_nil, List.sum_cons, List.sum_nil, Piece.turns,
      List.length_append]
    omega
  | begin htodo =>
    have := List.length_pos_iff.mpr htodo
    simp only [List.map_cons, List.map_nil, List.sum_cons, List.sum_nil, Piece.turns]
    omega
  | item hwork => simp [Piece.turns]
  | failure hwork => simp [Piece.turns]
  | giveUp => simp [Piece.turns]

theorem Step.turns_lt (h : Step job pool pool') : pool'.turns < pool.turns := by
  cases h with
  | turn h =>
    have hpiece := h.turns_lt
    simp only [Pool.turns, List.map_append, List.map_cons, List.sum_append, List.sum_cons]
    omega

theorem wellFounded_step (job : Job σ α β ε) : WellFounded fun pool' pool => Step job pool pool' :=
  Subrelation.wf (fun h => h.turns_lt) (measure Pool.turns).wf

theorem exists_step (job : Job σ α β ε) (h : ¬ pool.Finished) : ∃ pool', Step job pool pool' := by
  obtain ⟨pieces, saved⟩ := pool
  simp only [Pool.Finished, not_forall] at h
  obtain ⟨piece, hmem, hpiece⟩ := h
  obtain ⟨before, after, rfl⟩ := List.append_of_mem hmem
  cases piece with
  | waiting todo => exact ⟨_, .turn (.begin hpiece)⟩
  | busy done todo s =>
    cases todo with
    | nil => exact absurd rfl hpiece
    | cons x todo =>
      rcases hwork : job.work s x with ⟨e | y, s'⟩
      · exact ⟨_, .turn (.failure hwork)⟩
      · exact ⟨_, .turn (.item hwork)⟩
  | givenUp => exact absurd trivial hpiece

theorem exists_finished (job : Job σ α β ε) (pool : Pool σ α β ε) :
    ∃ pool', Steps job pool pool' ∧ pool'.Finished := by
  induction pool using (wellFounded_step job).induction with
  | _ pool ih =>
    by_cases hfinished : pool.Finished
    · exact ⟨pool, .refl, hfinished⟩
    · obtain ⟨mid, hstep⟩ := exists_step job hfinished
      obtain ⟨last, hsteps, hlast⟩ := ih mid hstep
      exact ⟨last, .head hstep hsteps, hlast⟩

theorem exists_outcome (job : Job σ α β ε) (items : List α) :
    ∃ result, Outcome job items result := by
  obtain ⟨pool, hsteps, hfinished⟩ := exists_finished job (Pool.start items)
  exact ⟨pool.result, pool, hsteps, hfinished, rfl⟩

end WorkSplitting
