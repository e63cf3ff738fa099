import Kryos.Lib.DefiniteAssignment

/-!
# Soundness of the checker for definite assignment

`Tracks` relates the scopes of the checker to those of a run: whatever is unassigned in the run is
unassigned for the checker, in every scope that is open. A run may have scopes and names that the
checker has not, and the checker may still have names of scopes that are closed.

A program only assigns (`Prog.runs_growing`), so what the checker knew at the start of a path is
right wherever the path is left. `Prog.runs_sound` is by recursion over programs, with one rule for
each way to compose runs.
-/

namespace DefiniteAssignment

universe u

variable {ν : Type u} {κ : Type*}

/-! ### What the checker knows of a run -/

/-- What is unassigned in the run is unassigned for the checker. -/
def Sees (v : Stack Unit ν) (m : Stack Kind ν) : Prop := ∀ x, vis m x = some false → vis v x = some false

/-- `Sees` now, and also when the scopes that are open now have been closed. A name that the checker
does not find in the scope where the run has it hides no unassigned local. -/
inductive Tracks : Stack Unit ν → Stack Kind ν → Prop where
  | nil : Tracks [] []
  | plain {h g : Layer ν} {v : Stack Unit ν} {m : Stack Kind ν}
      (sees : Sees (((), h) :: v) ((.plain, g) :: m))
      (known : ∀ x, g x ≠ none → h x = none → vis m x ≠ some false) (below : Tracks v m) :
      Tracks (((), h) :: v) ((.plain, g) :: m)
  | merged {g : Layer ν} {v : Stack Unit ν} {m : Stack Kind ν}
      (sees : Sees v ((.merged, g) :: m)) (known : ∀ x, g x ≠ none → vis m x ≠ some false)
      (below : Tracks v m) :
      Tracks v ((.merged, g) :: m)

variable {init : Bool}

variable {K : List ν}

namespace Tracks

variable {v : Stack Unit ν} {m m' : Stack Kind ν} {x : ν}

theorem vis_eq (t : Tracks v m) : Sees v m := by
  cases t with
  | nil => exact fun x h => h
  | plain sees | merged sees => exact sees

theorem push_plain (t : Tracks v m) : Tracks (((), Layer.empty) :: v) ((.plain, Layer.empty) :: m) :=
  .plain t.vis_eq (fun _ h => absurd rfl h) t

theorem push_merged (t : Tracks v m) : Tracks v ((.merged, Layer.empty) :: m) :=
  .merged t.vis_eq (fun _ h => absurd rfl h) t

theorem pop_plain {f : Unit × Layer ν} {g : Layer ν} (t : Tracks (f :: v) ((.plain, g) :: m)) :
    Tracks v m := by
  cases t with
  | plain _ _ below => exact below

theorem pop_merged {g : Layer ν} (t : Tracks v ((.merged, g) :: m)) : Tracks v m := by
  cases t with
  | merged _ _ below => exact below

theorem sees_of_grows (h : Sees v m) (hm : Grows m m') : Sees v m' := by
  intro x hx
  rcases hm.vis_eq x with he | ⟨-, he⟩
  · exact h x (he ▸ hx)
  · rw [he] at hx
    cases hx

theorem grow (t : Tracks v m) (hm : Grows m m') : Tracks v m' := by
  induction t generalizing m' with
  | nil =>
    cases hm
    exact .nil
  | plain sees known _ ih =>
    have hsees := sees_of_grows sees hm
    obtain ⟨g', m₁, rfl, hdom, hm₁⟩ := hm.cons_inv
    exact .plain hsees (fun x hx hh => hm₁.vis_ne (known x (hdom x hx) hh)) (ih hm₁)
  | merged sees known _ ih =>
    have hsees := sees_of_grows sees hm
    obtain ⟨g', m₁, rfl, hdom, hm₁⟩ := hm.cons_inv
    exact .merged hsees (fun x hx => hm₁.vis_ne (known x (hdom x hx))) (ih hm₁)

variable [DecidableEq ν]

theorem sees_mark (h : Sees v m) (hK : Settled K m) : Sees (mark K v) m := by
  intro x hx
  rw [vis_mark, if_neg (fun hmem => hK x hmem hx)]
  exact h x hx

/-- The checker may take locals as assigned that are. -/
theorem mark_of_settled (t : Tracks v m) (hK : Settled K m) : Tracks (mark K v) m := by
  induction t generalizing K with
  | nil => exact .nil
  | @plain h g v m sees known below ih =>
    refine .plain (sees_mark sees hK) (fun x hx hh => known x hx ?_) (ih ?_)
    · have hh' : (if x ∈ K then (h x).map fun _ => true else h x) = none := hh
      split at hh' <;> simpa using hh'
    · intro x hx
      obtain ⟨hxK, hxh⟩ := List.mem_filter.1 hx
      -- where the run has the name and the checker has not, it hides nothing unassigned
      cases hg : g x with
      | none => simpa [vis, hg] using hK x hxK
      | some b => exact known x (by simp [hg]) (by simpa using hxh)
  | @merged g v m sees known below ih =>
    refine .merged (sees_mark sees hK) known (ih fun x hx => ?_)
    cases hg : g x with
    | none => simpa [vis, hg] using hK x hx
    | some b => exact known x (by simp [hg])

theorem assign (t : Tracks v m) (x : ν) : Tracks (mark [x] v) (mark [x] m) :=
  (t.grow (grows_mark [x] m)).mark_of_settled (settled_mark_self [x] m)

theorem sees_declare (h : Sees v m) (hx : vis m x ≠ some false) : Sees (declare x init v) m := by
  intro y hy
  cases v with
  | nil => exact h y hy
  | cons f v =>
    rw [vis_declare, if_neg (fun e : y = x => hx (e ▸ hy))]
    exact h y hy

theorem update_eq_none {h : Layer ν} {y : ν} (hy : Function.update h x (some init) y = none) :
    h y = none := by
  by_cases hyx : y = x
  · simp [hyx] at hy
  · simpa [hyx] using hy

theorem update_ne_none {h : Layer ν} {y : ν} (hyx : y ≠ x)
    (hy : Function.update h x (some init) y ≠ none) : h y ≠ none := by
  simpa [hyx] using hy

/-- The checker may take a name into the current scope that the run has further in, if it hides
nothing unassigned. -/
theorem declare_below (t : Tracks v m) (hx : vis m x ≠ some false) :
    Tracks (declare x init v) m := by
  induction t with
  | nil => exact .nil
  | plain sees known below _ =>
    exact .plain (sees_declare sees hx) (fun y hy hh => known y hy (update_eq_none hh)) below
  | @merged g v m sees known below ih =>
    refine .merged (sees_declare sees hx) known (ih ?_)
    cases hg : g x with
    | none => simpa [vis, hg] using hx
    | some b => exact known x (by simp [hg])

theorem sees_declare_both {k : Kind} {g : Layer ν} (h : Sees v ((k, g) :: m)) (hv : v ≠ []) :
    Sees (declare x init v) (declare x init ((k, g) :: m)) := by
  obtain ⟨f, v, rfl⟩ := List.exists_cons_of_ne_nil hv
  intro y hy
  rw [vis_declare] at hy ⊢
  split at hy
  · rwa [if_pos ‹_›]
  · rw [if_neg ‹_›]
    exact h y hy

theorem declare_both (t : Tracks v m) (hv : v ≠ []) (hx : headMerged m → Unshadowing x m) :
    Tracks (declare x init v) (declare x init m) := by
  cases t with
  | nil => exact absurd rfl hv
  | @plain h g v m sees known below =>
    refine .plain (sees_declare_both sees hv) (fun y hy hh => ?_) below
    by_cases hyx : y = x
    · subst hyx
      simp at hh
    · exact known y (update_ne_none hyx hy) (update_eq_none hh)
  | @merged g v m sees known below =>
    have hxm : vis m x ≠ some false := (hx trivial).elim (known x) id
    refine .merged (sees_declare_both sees hv) (fun y hy => ?_) (below.declare_below hxm)
    by_cases hyx : y = x
    · exact hyx ▸ hxm
    · exact known y (update_ne_none hyx hy)

/-- The run may take a name into the current scope that the checker knows nothing of, if it hides
nothing unassigned. -/
theorem bind (t : Tracks v m) (hx : Unshadowing x m) : Tracks v (declare x true m) := by
  have sees_bind : ∀ {k g m}, Sees v ((k, g) :: m) → Sees v (declare x true ((k, g) :: m)) := by
    intro k g m h y hy
    rw [vis_declare] at hy
    split at hy
    · cases hy
    · exact h y hy
  cases t with
  | nil => exact .nil
  | @plain h g v m sees known below =>
    refine .plain (sees_bind sees) (fun y hy hh => ?_) below
    by_cases hyx : y = x
    · subst hyx
      exact hx.elim (known y · hh) id
    · exact known y (update_ne_none hyx hy) hh
  | @merged g v m sees known below =>
    refine .merged (sees_bind sees) (fun y hy => ?_) below
    by_cases hyx : y = x
    · subst hyx
      exact hx.elim (known y) id
    · exact known y (update_ne_none hyx hy)

end Tracks

/-! ### The checker is sound -/

namespace Run

variable {P Q : Run ν} {v w u : Stack Unit ν} {R : Stack Kind ν → Prop}

/-- From where the checker is at `v`, no fault, and at the end the checker is at `w`. -/
def Sound (P : Run ν) (v w : Stack Unit ν) : Prop :=
  ∀ ⦃m o m'⦄, Tracks v m → P m o m' → o ≠ .fault ∧ (o = .done → Tracks w m')

theorem still_sound (v : Stack Unit ν) : (still : Run ν).Sound v v := by
  rintro m o _ t ⟨rfl | rfl, rfl⟩
  · exact ⟨nofun, fun _ => t⟩
  · exact ⟨nofun, nofun⟩

theorem reads_sound {x : ν} (hx : vis v x ≠ some false) : (reads x).Sound v v := by
  rintro m o m' t (⟨-, h⟩ | ⟨hm, -⟩)
  · exact still_sound v t h
  · exact absurd (t.vis_eq x hm) hx

theorem Sound.andThen (hP : P.Sound v w) (hQ : Q.Sound w u) : (P.andThen Q).Sound v u := by
  rintro m o m' t (⟨a, h₁, h₂⟩ | ⟨ho, h⟩)
  · exact hQ ((hP t h₁).2 rfl) h₂
  · exact ⟨(hP t h).1, fun e => absurd e ho⟩

/-- What the checker knew before is still right after. -/
theorem Sound.keep (hP : P.Sound v w) (hg : P.Growing) : P.Sound v v :=
  fun _ _ _ t h => ⟨(hP t h).1, fun _ => t.grow (hg h)⟩

theorem Sound.catching {e : Exit} (hP : P.Sound v w) (hg : P.Growing) (hQ : Q.Sound v w) :
    (catching e P Q).Sound v w := by
  rintro m o m' t (⟨a, h₁, h₂⟩ | ⟨-, h⟩)
  · exact hQ (t.grow (hg h₁)) h₂
  · exact hP t h

theorem Sound.inside_merged (hP : P.Sound v w) (hg : P.GrowingBelow) :
    (inside .merged P).Sound v w := by
  rintro m o m' t ⟨a, h, rfl⟩
  refine ⟨(hP t.push_merged h).1, fun ho => ?_⟩
  obtain ⟨g, s, rfl, -⟩ := hg h
  exact ((hP t.push_merged h).2 ho).pop_merged

variable [DecidableEq ν]

theorem ends_sound (hR : ∀ m, R m → Settled K m) (v : Stack Unit ν) :
    (ends R).Sound v (mark K v) := by
  rintro m o _ t ⟨rfl, rfl, h⟩
  exact ⟨nofun, fun _ => t.mark_of_settled (hR _ h)⟩

/-- Another path than the one that the checker keeps comes to the join. -/
theorem Sound.join (hP : P.Sound v w) (hg : P.Growing) (hR : ∀ m, R m → Settled K m) :
    (P.andThen (ends R)).Sound v (mark K v) :=
  (hP.keep hg).andThen (ends_sound hR v)

theorem Sound.lastTurn {K : List ν} (hP : P.Sound v w) (hQ : Q.Sound w u) (hg : Q.Growing)
    (hR : ∀ m, R m → Settled K m) : (lastTurn R P Q).Sound v (mark K w) := by
  refine hP.andThen ?_
  rintro m o m' t (h | ⟨b, h₁, h₂⟩ | ⟨ho, -, -, h⟩)
  · exact ends_sound hR w t h
  · exact ends_sound hR w (t.grow (hg h₁)) h₂
  · exact ⟨(hQ t h).1, fun e => absurd e ho⟩

theorem Sound.loop {K : List ν} (hP : P.Sound v w) (hPg : P.Growing) (hQ : Q.Sound w u)
    (hQg : Q.Growing) (hR : ∀ m, R m → Settled K m) : (loop R P Q).Sound v (mark K w) := by
  rintro m o m' t ⟨a, h₁, h₂⟩
  exact hP.lastTurn hQ hQg hR (t.grow (turn_grows hPg hQg h₁)) h₂

end Run

section

variable [DecidableEq ν]

variable {v : Stack κ ν}

theorem after_cons_declare {b : Body ν} {x : ν} {k : κ} {h : Layer ν}
    (ih : ∃ h', b.after ((k, Function.update h x (some init)) :: v) = (k, h') ::
        mark (b.kept.filter fun y => (Function.update h x (some init) y).isNone) v ∧
      ∀ y, h' y = none ↔ Function.update h x (some init) y = none ∧ y ∉ b.declared) :
    ∃ h', b.after (DefiniteAssignment.declare x init ((k, h) :: v)) = (k, h') ::
        mark ((b.kept.filter (· ≠ x)).filter fun y => (h y).isNone) v ∧
      ∀ y, h' y = none ↔ h y = none ∧ y ∉ x :: b.declared := by
  obtain ⟨h', he, hd⟩ := ih
  refine ⟨h', ?_, fun y => ?_⟩
  · rw [DefiniteAssignment.declare, he, List.filter_filter]
    congr 3
    funext y
    by_cases hy : y = x <;> simp [hy]
  · rw [hd y]
    by_cases hy : y = x <;> simp [hy]

/-- The contents of a scope assign, outside it, what they keep. -/
theorem Body.after_cons : (b : Body ν) → (k : κ) → (h : Layer ν) → (v : Stack κ ν) →
    ∃ h', b.after ((k, h) :: v) = (k, h') :: mark (b.kept.filter fun x => (h x).isNone) v ∧
      ∀ x, h' x = none ↔ h x = none ∧ x ∉ b.declared
  | .nil, k, h, v => ⟨h, by simp [Body.after, Body.kept], by simp [Body.declared]⟩
  | .step p b, k, h, v => by
    obtain ⟨h', he, hd⟩ := b.after_cons k
      (fun x => if x ∈ p.kept then (h x).map fun _ => true else h x)
      (mark (p.kept.filter fun x => (h x).isNone) v)
    have hdom : ∀ x, (if x ∈ p.kept then (h x).map fun _ => true else h x).isNone
        = (h x).isNone := by
      intro x
      split <;> simp
    refine ⟨h', ?_, fun x => ?_⟩
    · show b.after (mark p.kept ((k, h) :: v)) = _
      simp only [hdom] at he
      rw [mark, he, mark_mark, ← List.filter_append]
      rfl
    · rw [hd x]
      show _ ↔ _ ∧ x ∉ b.declared
      split <;> simp
  | .declare x init b, k, h, v | .guess x b, k, h, v => after_cons_declare (b.after_cons k _ v)
  | .bind _ _ b, k, h, v => b.after_cons k h v
  | .merged a b, k, h, v => by
    obtain ⟨h₁, he₁, hd₁⟩ := a.after_cons k h v
    obtain ⟨h', he, hd⟩ := b.after_cons k h₁ (mark (a.kept.filter fun x => (h x).isNone) v)
    refine ⟨h', ?_, fun y => ?_⟩
    · rw [Body.after, he₁, he, mark_mark, Body.kept, List.filter_append, List.filter_filter]
      congr 4
      funext y
      have := hd₁ y
      cases hy : h y <;> cases hy₁ : h₁ y <;> simp_all
    · rw [hd y, hd₁ y, Body.declared, List.mem_append, not_or, and_assoc]

theorem Body.after_scope (b : Body ν) (k : κ) (v : Stack κ ν) :
    ∃ h', b.after ((k, Layer.empty) :: v) = (k, h') :: mark b.kept v := by
  obtain ⟨h', he, -⟩ := b.after_cons k Layer.empty v
  exact ⟨h', by simpa [Layer.empty] using he⟩

theorem Body.after_ne_nil (b : Body ν) (hv : v ≠ []) : b.after v ≠ [] := by
  obtain ⟨f, v, rfl⟩ := List.exists_cons_of_ne_nil hv
  obtain ⟨h', he, -⟩ := b.after_cons f.1 f.2 v
  simp [he]

theorem settled_declare (h : Settled K v) (x : ν) : Settled K (declare x true v) := by
  intro y hy
  cases v with
  | nil => exact h y hy
  | cons f v =>
    rw [vis_declare]
    split
    · simp
    · exact h y hy

theorem settled_after {K : List ν} : (b : Body ν) → {v : Stack κ ν} → Settled K v →
    b.blanks = [] → Settled K (b.after v)
  | .nil, _, h, _ => h
  | .step _ b, _, h, hb => settled_after b (settled_mark h) (List.append_eq_nil_iff.1 hb).2
  | .declare _ true b, _, h, hb | .guess _ b, _, h, hb => settled_after b (settled_declare h _) hb
  | .bind _ _ b, _, h, hb => settled_after b h hb
  | .merged a b, _, h, hb =>
    settled_after b (settled_after a h (List.append_eq_nil_iff.1 hb).1)
      (List.append_eq_nil_iff.1 hb).2

mutual

/-- Nothing is found in a program where every local is assigned from the start. -/
theorem Prog.clean_of_settled : (p : Prog ν) → {v : Stack Unit ν} → Settled p.reads v →
    p.blanks = [] → p.clean v
  | .skip, _, _, _ | .peek _, _, _, _ | .assign _, _, _, _ | .leave _, _, _, _
  | .mayLeave _, _, _, _ | .unseen _, _, _, _ => trivial
  | .read x, _, h, _ => h x (List.mem_singleton_self x)
  | .seq p q, _, h, hb | .loop p q, _, h, hb | .attempt p q, _, h, hb | .defer p q, _, h, hb =>
    ⟨p.clean_of_settled (settled_append.1 h).1 (List.append_eq_nil_iff.1 hb).1,
      q.clean_of_settled (settled_mark (settled_append.1 h).2) (List.append_eq_nil_iff.1 hb).2⟩
  | .scope b, _, h, hb => b.clean_of_settled h hb
  | .orElse p q, _, h, hb =>
    ⟨p.clean_of_settled (settled_append.1 h).1 (List.append_eq_nil_iff.1 hb).1,
      q.clean_of_settled (settled_append.1 h).2 (List.append_eq_nil_iff.1 hb).2⟩
  | .handle _ p, _, h, hb => p.clean_of_settled h hb

theorem Body.clean_of_settled : (b : Body ν) → {v : Stack Unit ν} → Settled b.reads v →
    b.blanks = [] → b.clean v
  | .nil, _, _, _ => trivial
  | .step p b, _, h, hb =>
    ⟨p.clean_of_settled (settled_append.1 h).1 (List.append_eq_nil_iff.1 hb).1,
      b.clean_of_settled (settled_mark (settled_append.1 h).2) (List.append_eq_nil_iff.1 hb).2⟩
  | .declare x true b, _, h, hb | .guess x b, _, h, hb =>
    b.clean_of_settled (settled_declare h x) hb
  | .bind _ _ b, _, h, hb => b.clean_of_settled h hb
  | .merged a b, _, h, hb =>
    ⟨a.clean_of_settled (settled_append.1 h).1 (List.append_eq_nil_iff.1 hb).1,
      b.clean_of_settled (settled_after a (settled_append.1 h).2 (List.append_eq_nil_iff.1 hb).1)
        (List.append_eq_nil_iff.1 hb).2⟩

end

mutual

theorem Prog.runs_sound : (p : Prog ν) → {v : Stack Unit ν} → p.clean v →
    (p.runs .settled).Sound v (mark p.kept v)
  | .skip, v, _ => by
    rw [Prog.kept, mark_nil]
    exact Run.still_sound v
  | .read x, v, hc => by
    rw [Prog.kept, mark_nil]
    exact Run.reads_sound hc
  | .peek x, v, _ => by
    rw [Prog.kept, mark_nil]
    rintro m o m' t ⟨hx, ⟨-, h⟩ | ⟨hm, -⟩⟩
    · exact Run.still_sound v t h
    · exact absurd hm (hx rfl)
  | .assign x, v, _ => by
    rintro m o m' t (⟨rfl, rfl⟩ | ⟨rfl, rfl⟩)
    · exact ⟨nofun, fun _ => t.assign x⟩
    · exact ⟨nofun, nofun⟩
  | .leave _, v, _ => by
    rintro m o m' t ⟨rfl | rfl, rfl⟩
    · exact ⟨nofun, nofun⟩
    · exact ⟨nofun, nofun⟩
  | .mayLeave _, v, _ => by
    rw [Prog.kept, mark_nil]
    rintro m o m' t ⟨rfl | rfl | rfl, rfl⟩
    · exact ⟨nofun, fun _ => t⟩
    · exact ⟨nofun, nofun⟩
    · exact ⟨nofun, nofun⟩
  | .seq p q, v, ⟨hp, hq⟩ => by
    rw [Prog.kept, ← mark_mark]
    exact (p.runs_sound hp).andThen (q.runs_sound hq)
  | .scope b, v, hc => by
    rintro m o m' t ⟨a, h, rfl⟩
    obtain ⟨hf, ht⟩ := b.runs_sound (by simp) hc t.push_plain h
    refine ⟨hf, fun ho => ?_⟩
    obtain ⟨g, s, rfl, -⟩ := b.runs_growingBelow .settled h
    obtain ⟨h', he⟩ := b.after_scope () v
    have ht := he ▸ ht ho
    exact ht.pop_plain
  | .orElse p q, v, ⟨hp, hq⟩ =>
    ((p.runs_sound hp).join (p.runs_growing _) fun _ h => h rfl).catching
      ((p.runs_growing _).andThen Run.ends_growing) (q.runs_sound hq)
  | .loop c p, v, ⟨hc, hp⟩ => by
    rw [Prog.kept, ← mark_mark]
    exact (c.runs_sound hc).loop (c.runs_growing _) (p.runs_sound hp) (p.runs_growing _)
      fun _ h => h rfl
  | .attempt p q, v, ⟨hp, hq⟩ => by
    rw [Prog.kept, ← mark_mark]
    refine Run.Sound.catching ?_ ((p.runs_growing _).andThen Run.ends_growing) ?_
    · exact (p.runs_sound hp).andThen (Run.ends_sound (fun _ h => h rfl) _)
    · exact (Run.ends_sound (fun _ h => h rfl) _).andThen (q.runs_sound hq)
  | .defer p q, v, ⟨hp, hq⟩ => by
    rw [Prog.kept, ← mark_mark]
    rintro m o m' t ⟨hs, h⟩
    rcases h with ⟨a, h₁, h | h⟩ | ⟨ho, h⟩
    · exact Run.still_sound _ ((q.runs_sound hq (t.mark_of_settled (hs rfl)) h₁).2 rfl) h
    · have hta := (q.runs_sound hq (t.mark_of_settled (hs rfl)) h₁).2 rfl
      have hp := p.runs_sound hp (t.grow (q.runs_growing _ h₁)) h
      exact ⟨hp.1, fun _ => hta.grow (p.runs_growing _ h)⟩
    · exact ⟨(q.runs_sound hq (t.mark_of_settled (hs rfl)) h).1, fun e => absurd e ho⟩
  | .handle _ p, v, hc =>
    (p.runs_sound hc).catching (p.runs_growing _) (Run.ends_sound (fun _ h => h rfl) v)
  | .unseen p, v, _ => by
    rw [Prog.kept, mark_nil]
    rintro m o m' t ⟨hs, h⟩
    obtain ⟨hs, hb⟩ := hs rfl
    have hc := p.clean_of_settled (settled_mark_self p.reads v) hb
    exact ⟨(p.runs_sound hc (t.mark_of_settled hs) h).1, fun _ => t.grow (p.runs_growing _ h)⟩

theorem Body.runs_sound : (b : Body ν) → {v : Stack Unit ν} → v ≠ [] → b.clean v →
    (b.runs .settled).Sound v (b.after v)
  | .nil, v, _, _ => by
    rintro m o m' t ⟨rfl, rfl⟩
    exact ⟨nofun, fun _ => t⟩
  | .step p b, v, hv, ⟨hp, hb⟩ =>
    (p.runs_sound hp).andThen (b.runs_sound (mark_ne_nil hv) hb)
  | .declare x init b, v, hv, hc => by
    rintro m o m' t ⟨hx, h⟩
    exact b.runs_sound (declare_ne_nil hv) hc (t.declare_both hv fun hm => hx hm rfl) h
  | .bind x _ b, v, hv, hc => by
    rintro m o m' t ⟨hx, h⟩
    obtain ⟨rfl, hnew⟩ := hx rfl
    exact b.runs_sound hv hc (t.bind hnew) h
  | .guess x b, v, hv, hc => by
    rintro m o m' t (⟨hx, h⟩ | ⟨hx, h⟩)
    · exact b.runs_sound (declare_ne_nil hv) hc (t.declare_both hv fun hm => hx hm rfl) h
    · exact b.runs_sound (declare_ne_nil hv) hc (t.declare_below (hx rfl)) h
  | .merged a b, v, hv, ⟨ha, hb⟩ =>
    ((a.runs_sound hv ha).inside_merged (a.runs_growingBelow _)).andThen
      (b.runs_sound (a.after_ne_nil hv) hb)

end

end

end DefiniteAssignment
