import Mathlib

/-!
# The nodes on a cycle, by strongly connected components

The depth-first search of Tarjan's algorithm, with its recursion laid out as a list of frames. A
node gets an index when it is entered, and its low link is the least index of a node on the stack
that is known to be reachable from it. A node that is left with its low link equal to its index is
the first of its component, and the component is what lies above it on the stack. The nodes of a
component with more than one node lie on a cycle; a node that is its component does if it has an
edge to itself.

`Inv` is the invariant of the search. It follows from it that the search collects the nodes on a
cycle and no others (`mem_cycleNodes`).
-/

namespace Tarjan

open Relation

variable {α : Type*} [DecidableEq α]

structure State (α : Type*) where
  index : α → Option ℕ
  low : α → ℕ
  nextIndex : ℕ
  /-- The last node entered comes first. -/
  stack : List α
  /-- The nodes that are being searched, each with the successors that are left. -/
  frames : List (α × List α)
  out : Finset α

def init : State α where
  index _ := none
  low _ := 0
  nextIndex := 0
  stack := []
  frames := []
  out := ∅

def enter (succ : α → List α) (w : α) (s : State α) : State α :=
  { s with
    index := Function.update s.index w (some s.nextIndex)
    low := Function.update s.low w s.nextIndex
    nextIndex := s.nextIndex + 1
    stack := w :: s.stack
    frames := (w, succ w) :: s.frames }

/-- Take from a stack what lies above `n`, and `n`. -/
def popTo (n : α) : List α → List α × List α
  | [] => ([], [])
  | w :: rest =>
    if w = n then ([w], rest) else (w :: (popTo n rest).1, (popTo n rest).2)

/-- The part of the component of `n` that lies on a cycle. -/
def cyclePart (succ : α → List α) (n : α) (comp : List α) : Finset α :=
  if 1 < comp.length then comp.toFinset else if n ∈ succ n then {n} else ∅

def popComponent (succ : α → List α) (n : α) (s : State α) : State α :=
  { s with
    stack := (popTo n s.stack).2
    out := s.out ∪ cyclePart succ n (popTo n s.stack).1 }

/-- Hand the low link of a node that is left to the node it was entered from. -/
def lowerParent (n : α) (s : State α) : State α :=
  match s.frames with
  | [] => s
  | (parent, _) :: _ =>
    { s with low := Function.update s.low parent (min (s.low parent) (s.low n)) }

def step (succ : α → List α) (s : State α) : State α :=
  match s.frames with
  | [] => s
  | (n, w :: ws) :: frames =>
    let s := { s with frames := (n, ws) :: frames }
    match s.index w with
    | none => enter succ w s
    | some k =>
      if w ∈ s.stack then { s with low := Function.update s.low n (min (s.low n) k) } else s
  | (n, []) :: frames =>
    let s := { s with frames := frames }
    lowerParent n (if s.index n = some (s.low n) then popComponent succ n s else s)

def searchFrom (succ : α → List α) (fuel : ℕ) (s : State α) (root : α) : State α :=
  match s.index root with
  | some _ => s
  | none => (step succ)^[fuel] (enter succ root s)

/-- The nodes on a cycle, among those that can be reached from the roots. -/
def cycleNodes (succ : α → List α) (fuel : ℕ) (roots : List α) : Finset α :=
  (roots.foldl (searchFrom succ fuel) init).out

/-! ### The invariant -/

section Invariant

variable (succ : α → List α)

def Edge (a b : α) : Prop := b ∈ succ a

/-- The node lies on a cycle. -/
def OnCycle (v : α) : Prop := TransGen (Edge succ) v v

variable (s : State α)

def Visited (v : α) : Prop := s.index v ≠ none

/-- The index of a node that was entered. -/
def idx (v : α) : ℕ := (s.index v).getD 0

/-- What a frame knows about the edge to `w` that it has looked at: `w` has been entered, and if it
is still on the stack then the low link accounts for it, unless it is being searched right now. -/
def EdgeSeen (active : Option α) (n w : α) : Prop :=
  Visited s w ∧ (w ∈ s.stack → s.low n ≤ idx s w ∨ active = some w)

def FramesSeen : Option α → List (α × List α) → Prop
  | _, [] => True
  | active, (n, ws) :: frames =>
    (∃ pre, succ n = pre ++ ws ∧ ∀ w ∈ pre, EdgeSeen s active n w) ∧ FramesSeen (some n) frames

/-- The nodes that are being searched. -/
def nodes : List α := s.frames.map Prod.fst

structure Inv : Prop where
  stackSorted : s.stack.Pairwise fun a b => idx s b < idx s a
  stackVisited : ∀ v ∈ s.stack, Visited s v
  indexLt : ∀ v, Visited s v → idx s v < s.nextIndex
  nodesSorted : (nodes s).Pairwise fun a b => idx s b < idx s a
  nodesStack : ∀ n ∈ nodes s, n ∈ s.stack
  /-- The stack starts with the first frame. -/
  rooted : ∀ v ∈ s.stack, ∃ n ∈ nodes s, idx s n ≤ idx s v
  lowLe : ∀ v ∈ s.stack, s.low v ≤ idx s v
  lowReached : ∀ v ∈ s.stack, ∃ u ∈ s.stack, idx s u = s.low v ∧ ReflTransGen (Edge succ) v u
  /-- A node that was left and is still on the stack reaches an earlier one. -/
  leftLow : ∀ v ∈ s.stack, v ∉ nodes s → s.low v < idx s v
  nodesReach : ∀ n ∈ nodes s, ∀ v ∈ s.stack, idx s n ≤ idx s v → ReflTransGen (Edge succ) n v
  /-- The last frame before a node accounts for its low link. -/
  segment : ∀ n ∈ nodes s, ∀ v ∈ s.stack, idx s n ≤ idx s v →
    (∀ m ∈ nodes s, idx s m ≤ idx s v → idx s m ≤ idx s n) → s.low n ≤ s.low v
  framesSeen : FramesSeen succ s none s.frames
  leftSeen : ∀ v, Visited s v → v ∉ nodes s → ∀ w ∈ succ v, Visited s w ∧
    (v ∈ s.stack → w ∈ s.stack → s.low v ≤ idx s w) ∧ (v ∉ s.stack → w ∉ s.stack)
  out : ∀ v, v ∈ s.out ↔ Visited s v ∧ v ∉ s.stack ∧ OnCycle succ v

end Invariant

variable {succ : α → List α} {s : State α}

omit [DecidableEq α] in
theorem inv_init : Inv succ (init : State α) where
  stackSorted := List.Pairwise.nil
  stackVisited _ h := absurd h List.not_mem_nil
  indexLt _ h := absurd rfl h
  nodesSorted := List.Pairwise.nil
  nodesStack _ h := absurd h List.not_mem_nil
  rooted _ h := absurd h List.not_mem_nil
  lowLe _ h := absurd h List.not_mem_nil
  lowReached _ h := absurd h List.not_mem_nil
  leftLow _ h := absurd h List.not_mem_nil
  nodesReach _ h := absurd h List.not_mem_nil
  segment _ h := absurd h List.not_mem_nil
  framesSeen := trivial
  leftSeen _ h := absurd rfl h
  out v := iff_of_false (Finset.notMem_empty v) fun h => h.1 rfl

variable {frames : List (α × List α)}

omit [DecidableEq α] in
/-- What a frame has seen stays seen when nodes are entered, when nodes leave the stack and when low
links go down. -/
theorem FramesSeen.mono {s' : State α} {active : Option α} (h : FramesSeen succ s active frames)
    (hv : ∀ w, Visited s w → Visited s' w) (hi : ∀ w, Visited s w → idx s' w = idx s w)
    (hs : ∀ w, Visited s w → w ∈ s'.stack → w ∈ s.stack) (hl : ∀ f ∈ frames, s'.low f.1 ≤ s.low f.1)
    : FramesSeen succ s' active frames := by
  induction frames generalizing active with
  | nil => trivial
  | cons f frames ih =>
    obtain ⟨⟨pre, hpre, hseen⟩, hrest⟩ := h
    refine ⟨⟨pre, hpre, fun w hw => ?_⟩, ih hrest fun g hg => hl g (List.mem_cons_of_mem f hg)⟩
    obtain ⟨hvw, hlow⟩ := hseen w hw
    refine ⟨hv w hvw, fun hws => ?_⟩
    rw [hi w hvw]
    rcases hlow (hs w hvw hws) with hlow | hact
    · exact .inl ((hl f List.mem_cons_self).trans hlow)
    · exact .inr hact

/-! ### Entering a node -/

variable {v : α}

section Enter

variable {w : α}

theorem idx_enter_self : idx (enter succ w s) w = s.nextIndex := by
  simp [idx, enter]

theorem idx_enter_of_ne (h : v ≠ w) : idx (enter succ w s) v = idx s v := by
  simp [idx, enter, h]

theorem low_enter_self : (enter succ w s).low w = s.nextIndex := by
  simp [enter]

theorem low_enter_of_ne (h : v ≠ w) : (enter succ w s).low v = s.low v := by
  simp [enter, h]

theorem visited_enter : Visited (enter succ w s) v ↔ v = w ∨ Visited s v := by
  by_cases h : v = w
  · simp [Visited, enter, h]
  · simp [Visited, enter, h]

/-- Enter a node from the frames `frames`, which search the same nodes as those of `s`. -/
theorem Inv.enter (h : Inv succ s) (hnodes : frames.map Prod.fst = nodes s) (hw : ¬ Visited s w)
    (hreach : ∀ n ∈ nodes s, ReflTransGen (Edge succ) n w)
    (hseen : FramesSeen succ (enter succ w { s with frames }) (some w) frames) :
    Inv succ (Tarjan.enter succ w { s with frames }) := by
  set s' := Tarjan.enter succ w { s with frames } with hs'
  have hidx : idx s' w = s.nextIndex := idx_enter_self
  have hlow : s'.low w = s.nextIndex := low_enter_self
  have hne : ∀ v, Visited s v → v ≠ w := fun v hv hvw => hw (hvw ▸ hv)
  have hidx' : ∀ v, Visited s v → idx s' v = idx s v := fun v hv => idx_enter_of_ne (hne v hv)
  have hlow' : ∀ v, Visited s v → s'.low v = s.low v := fun v hv => low_enter_of_ne (hne v hv)
  have hvis : ∀ v, Visited s' v ↔ v = w ∨ Visited s v := fun v => visited_enter
  have hstack : s'.stack = w :: s.stack := rfl
  have hnodes' : nodes s' = w :: nodes s := by
    rw [← hnodes]
    rfl
  have hsv := h.stackVisited
  have hnv : ∀ n ∈ nodes s, Visited s n := fun n hn => hsv n (h.nodesStack n hn)
  -- The new node has the greatest index.
  have hlt : ∀ v, Visited s v → idx s' v < idx s' w := by
    intro v hv
    rw [hidx' v hv, hidx]
    exact h.indexLt v hv
  constructor
  · rw [hstack, List.pairwise_cons]
    refine ⟨fun v hv => hlt v (hsv v hv), h.stackSorted.imp_of_mem fun ha hb hab => ?_⟩
    rwa [hidx' _ (hsv _ ha), hidx' _ (hsv _ hb)]
  · intro v hv
    rcases List.mem_cons.mp hv with rfl | hv
    · exact (hvis v).mpr (.inl rfl)
    · exact (hvis v).mpr (.inr (hsv v hv))
  · intro v hv
    show idx s' v < s.nextIndex + 1
    rcases (hvis v).mp hv with rfl | hv
    · omega
    · have := hlt v hv
      omega
  · rw [hnodes', List.pairwise_cons]
    refine ⟨fun n hn => hlt n (hnv n hn), h.nodesSorted.imp_of_mem fun ha hb hab => ?_⟩
    rwa [hidx' _ (hnv _ ha), hidx' _ (hnv _ hb)]
  · intro n hn
    rw [hnodes'] at hn
    rcases List.mem_cons.mp hn with rfl | hn
    · exact List.mem_cons_self
    · exact List.mem_cons_of_mem w (h.nodesStack n hn)
  · intro v hv
    rw [hnodes']
    rcases List.mem_cons.mp hv with rfl | hv
    · exact ⟨v, List.mem_cons_self, Nat.le_refl _⟩
    · obtain ⟨n, hn, hle⟩ := h.rooted v hv
      refine ⟨n, List.mem_cons_of_mem w hn, ?_⟩
      rwa [hidx' n (hnv n hn), hidx' v (hsv v hv)]
  · intro v hv
    rcases List.mem_cons.mp hv with rfl | hv
    · rw [hidx, hlow]
    · rw [hidx' v (hsv v hv), hlow' v (hsv v hv)]
      exact h.lowLe v hv
  · intro v hv
    rcases List.mem_cons.mp hv with rfl | hv
    · exact ⟨v, List.mem_cons_self, hidx.trans hlow.symm, .refl⟩
    · obtain ⟨u, hu, hlow, hr⟩ := h.lowReached v hv
      refine ⟨u, List.mem_cons_of_mem w hu, ?_, hr⟩
      rwa [hidx' u (hsv u hu), hlow' v (hsv v hv)]
  · intro v hv hleft
    rw [hnodes', List.mem_cons, not_or] at hleft
    rcases List.mem_cons.mp hv with rfl | hv
    · exact absurd rfl hleft.1
    · rw [hidx' v (hsv v hv), hlow' v (hsv v hv)]
      exact h.leftLow v hv hleft.2
  · intro n hn v hv hle
    rw [hnodes'] at hn
    rcases List.mem_cons.mp hn with hnw | hn' <;> rcases List.mem_cons.mp hv with hvw | hv'
    · rw [hnw, hvw]
    · rw [hnw] at hle
      exact absurd hle (Nat.not_le.mpr (hlt v (hsv v hv')))
    · rw [hvw]
      exact hreach n hn'
    · rw [hidx' n (hnv n hn'), hidx' v (hsv v hv')] at hle
      exact h.nodesReach n hn' v hv' hle
  · intro n hn v hv hle hnear
    rw [hnodes'] at hn hnear
    rcases List.mem_cons.mp hn with hnw | hn' <;> rcases List.mem_cons.mp hv with hvw | hv'
    · rw [hnw, hvw]
    · rw [hnw] at hle
      exact absurd hle (Nat.not_le.mpr (hlt v (hsv v hv')))
    · exact absurd (hnear w List.mem_cons_self (by rw [hvw]))
        (Nat.not_le.mpr (hlt n (hnv n hn')))
    · rw [hlow' n (hnv n hn'), hlow' v (hsv v hv')]
      rw [hidx' n (hnv n hn'), hidx' v (hsv v hv')] at hle
      refine h.segment n hn' v hv' hle fun m hm hmv => ?_
      have := hnear m (List.mem_cons_of_mem w hm)
      rw [hidx' m (hnv m hm), hidx' v (hsv v hv'), hidx' n (hnv n hn')] at this
      exact this hmv
  · exact ⟨⟨[], rfl, fun _ hu => absurd hu List.not_mem_nil⟩, hseen⟩
  · intro v hv hleft u hu
    rw [hnodes', List.mem_cons, not_or] at hleft
    have hv : Visited s v := ((hvis v).mp hv).resolve_left hleft.1
    obtain ⟨hvu, hlow, hoff⟩ := h.leftSeen v hv hleft.2 u hu
    have hstay : ∀ x, Visited s x → (x ∈ s'.stack ↔ x ∈ s.stack) := fun x hx =>
      ⟨fun hm => (List.mem_cons.mp hm).resolve_left (hne x hx), List.mem_cons_of_mem w⟩
    rw [hstay v hv, hstay u hvu, hlow' v hv, hidx' u hvu]
    exact ⟨(hvis u).mpr (.inr hvu), hlow, hoff⟩
  · intro v
    show v ∈ s.out ↔ _
    rw [h.out v, hvis, hstack, List.mem_cons, not_or]
    constructor
    · rintro ⟨hv, hoff, hcyc⟩
      exact ⟨.inr hv, ⟨hne v hv, hoff⟩, hcyc⟩
    · rintro ⟨hv, ⟨hvw, hoff⟩, hcyc⟩
      exact ⟨hv.resolve_left hvw, hoff, hcyc⟩

end Enter

/-! ### Looking at an edge -/

omit [DecidableEq α] in
theorem Inv.idx_inj (h : Inv succ s) {u : α} (hu : u ∈ s.stack) (hv : v ∈ s.stack)
    (heq : idx s u = idx s v) : u = v := by
  by_contra hne
  have hdistinct : s.stack.Pairwise fun a b => idx s a ≠ idx s b :=
    h.stackSorted.imp fun hab => Nat.ne_of_gt hab
  have : Std.Symm fun a b => idx s a ≠ idx s b := ⟨fun _ _ hab => hab.symm⟩
  exact hdistinct.forall hu hv hne heq

/-- The low link of a node that is being searched can go down to the index of a node on the stack
that it reaches. -/
theorem Inv.lower (h : Inv succ s) {p : α} {m : ℕ} (hp : p ∈ nodes s) (hm : m ≤ s.low p)
    (hu : ∃ u ∈ s.stack, idx s u = m ∧ ReflTransGen (Edge succ) p u) :
    Inv succ { s with low := Function.update s.low p m } := by
  have hself : Function.update s.low p m p = m := Function.update_self p m s.low
  have hne : ∀ v, v ≠ p → Function.update s.low p m v = s.low v := fun v hv =>
    Function.update_of_ne hv m s.low
  have hle : ∀ v, Function.update s.low p m v ≤ s.low v := by
    intro v
    by_cases hv : v = p
    · rw [hv, hself]
      exact hm
    · rw [hne v hv]
  refine ⟨h.stackSorted, h.stackVisited, h.indexLt, h.nodesSorted, h.nodesStack, h.rooted, ?_, ?_,
    ?_, h.nodesReach, ?_, ?_, ?_, h.out⟩
  · exact fun v hv => (hle v).trans (h.lowLe v hv)
  · intro v hv
    by_cases hvp : v = p
    · obtain ⟨u, hu, hidx, hr⟩ := hu
      refine ⟨u, hu, ?_, hvp ▸ hr⟩
      show idx s u = Function.update s.low p m v
      rw [hvp, hself, hidx]
    · obtain ⟨u, hu, hidx, hr⟩ := h.lowReached v hv
      refine ⟨u, hu, ?_, hr⟩
      show idx s u = Function.update s.low p m v
      rw [hne v hvp, hidx]
  · exact fun v hv hleft => (hle v).trans_lt (h.leftLow v hv hleft)
  · intro n hn v hv hnv hnear
    show Function.update s.low p m n ≤ Function.update s.low p m v
    by_cases hvp : v = p
    · have hpn : idx s p ≤ idx s n := hnear p hp (hvp ▸ Nat.le_refl _)
      have hnp : idx s n ≤ idx s p := hvp ▸ hnv
      rw [hvp, h.idx_inj (h.nodesStack n hn) (h.nodesStack p hp) (Nat.le_antisymm hnp hpn)]
    · rw [hne v hvp]
      exact (hle n).trans (h.segment n hn v hv hnv hnear)
  · exact h.framesSeen.mono (fun _ hw => hw) (fun _ _ => rfl) (fun _ _ hw => hw)
      fun f _ => hle f.1
  · intro v hv hleft w hw
    show Visited s w ∧ (_ → _ → Function.update s.low p m v ≤ _) ∧ _
    rw [hne v fun hvp => hleft (hvp ▸ hp)]
    exact h.leftSeen v hv hleft w hw

variable {n w : α}

omit [DecidableEq α] in
/-- Go on to the next edge. -/
theorem Inv.advance (h : Inv succ s) {ws : List α} (hf : s.frames = (n, w :: ws) :: frames)
    (hseen : EdgeSeen s none n w) : Inv succ { s with frames := (n, ws) :: frames } := by
  have hnodes : nodes { s with frames := (n, ws) :: frames } = nodes s := by
    rw [nodes, nodes, hf]
    rfl
  obtain ⟨⟨pre, hpre, hpreSeen⟩, hrest⟩ : FramesSeen succ s none ((n, w :: ws) :: frames) :=
    hf ▸ h.framesSeen
  refine ⟨h.stackSorted, h.stackVisited, h.indexLt, ?_, ?_, ?_, h.lowLe, h.lowReached, ?_, ?_, ?_,
    ⟨⟨pre ++ [w], ?_, ?_⟩, ?_⟩, ?_, h.out⟩
  · rw [hnodes]
    exact h.nodesSorted
  · rw [hnodes]
    exact h.nodesStack
  · rw [hnodes]
    exact h.rooted
  · rw [hnodes]
    exact h.leftLow
  · rw [hnodes]
    exact h.nodesReach
  · rw [hnodes]
    exact h.segment
  · rw [hpre, List.append_assoc, List.singleton_append]
  · intro u hu
    rcases List.mem_append.mp hu with hu | hu
    · exact hpreSeen u hu
    · rw [List.mem_singleton.mp hu]
      exact hseen
  · exact hrest.mono (fun _ hv => hv) (fun _ _ => rfl) (fun _ _ hv => hv) fun _ _ => Nat.le_refl _
  · rw [hnodes]
    exact h.leftSeen

/-! ### Leaving a node -/

omit [DecidableEq α] in
/-- The node at the top has seen all its edges. -/
theorem Inv.topSeen (h : Inv succ s) (hf : s.frames = (n, []) :: frames) (hw : w ∈ succ n) :
    Visited s w ∧ (w ∈ s.stack → s.low n ≤ idx s w) := by
  obtain ⟨⟨pre, hpre, hseen⟩, -⟩ : FramesSeen succ s none ((n, []) :: frames) :=
    hf ▸ h.framesSeen
  rw [hpre, List.append_nil] at hw
  obtain ⟨hv, hlow⟩ := hseen w hw
  exact ⟨hv, fun hws => (hlow hws).resolve_right nofun⟩

omit [DecidableEq α] in
/-- Leave a node that is not the first of its component, when the node before it accounts for its low
link. -/
theorem Inv.leave (h : Inv succ s) {p : α} {ws : List α}
    (hf : s.frames = (n, []) :: (p, ws) :: frames) (hlow : s.low n < idx s n)
    (hparent : s.low p ≤ s.low n) : Inv succ { s with frames := (p, ws) :: frames } := by
  set s' : State α := { s with frames := (p, ws) :: frames } with hs'
  have hnodes : nodes s = n :: nodes s' := by
    rw [nodes, hf]
    rfl
  have hsub : ∀ m ∈ nodes s', m ∈ nodes s := by
    intro m hm
    rw [hnodes]
    exact List.mem_cons_of_mem n hm
  have hn : n ∈ nodes s := by
    rw [hnodes]
    exact List.mem_cons_self
  have hp : p ∈ nodes s' := List.mem_cons_self
  obtain ⟨hbelow, hsorted⟩ : (∀ m ∈ nodes s', idx s m < idx s n) ∧
      (nodes s').Pairwise fun a b => idx s b < idx s a := by
    have := h.nodesSorted
    rwa [hnodes, List.pairwise_cons] at this
  have hpn : idx s p < idx s n := hbelow p hp
  -- The other frames come before `p`.
  have htop : ∀ m ∈ nodes s', idx s m ≤ idx s p := by
    intro m hm
    have : nodes s' = p :: frames.map Prod.fst := rfl
    rw [this] at hm hsorted
    rcases List.mem_cons.mp hm with rfl | hm
    · exact Nat.le_refl _
    · exact ((List.pairwise_cons.mp hsorted).1 m hm).le
  refine ⟨h.stackSorted, h.stackVisited, h.indexLt, hsorted, fun m hm => h.nodesStack m (hsub m hm),
    ?_, h.lowLe, h.lowReached, ?_, fun m hm => h.nodesReach m (hsub m hm), ?_, ?_, ?_, h.out⟩
  · intro v hv
    obtain ⟨m, hm, hmv⟩ := h.rooted v hv
    rw [hnodes] at hm
    rcases List.mem_cons.mp hm with rfl | hm
    · exact ⟨p, hp, hpn.le.trans hmv⟩
    · exact ⟨m, hm, hmv⟩
  · intro v hv hleft
    by_cases hvn : v = n
    · rw [hvn]
      exact hlow
    · refine h.leftLow v hv fun hm => ?_
      rw [hnodes] at hm
      exact (List.mem_cons.mp hm).elim hvn hleft
  · intro m hm v hv hmv hnear
    show s.low m ≤ s.low v
    by_cases hnv : idx s n ≤ idx s v
    · -- What `n` accounted for, `p` accounts for now.
      have hpm : idx s p ≤ idx s m := hnear p hp (hpn.le.trans hnv)
      have hmp : m = p := h.idx_inj (h.nodesStack m (hsub m hm))
        (h.nodesStack p (hsub p hp)) (Nat.le_antisymm (htop m hm) hpm)
      rw [hmp]
      refine hparent.trans (h.segment n hn v hv hnv fun g hg _ => ?_)
      rw [hnodes] at hg
      rcases List.mem_cons.mp hg with rfl | hg
      · exact Nat.le_refl _
      · exact (hbelow g hg).le
    · refine h.segment m (hsub m hm) v hv hmv fun g hg hgv => ?_
      rw [hnodes] at hg
      rcases List.mem_cons.mp hg with rfl | hg
      · exact absurd hgv hnv
      · exact hnear g hg hgv
  · obtain ⟨-, ⟨pre, hpre, hseen⟩, hrest⟩ :
        FramesSeen succ s none ((n, []) :: (p, ws) :: frames) := hf ▸ h.framesSeen
    refine ⟨⟨pre, hpre, fun w hw => ?_⟩, ?_⟩
    · obtain ⟨hv, hlow'⟩ := hseen w hw
      refine ⟨hv, fun hws => .inl ?_⟩
      rcases hlow' hws with hle | hact
      · exact hle
      · obtain rfl : n = w := Option.some.inj hact
        exact hparent.trans hlow.le
    · exact hrest.mono (fun _ hv => hv) (fun _ _ => rfl) (fun _ _ hv => hv) fun _ _ =>
        Nat.le_refl _
  · intro v hv hleft w hw
    show Visited s w ∧ (v ∈ s.stack → w ∈ s.stack → s.low v ≤ idx s w) ∧ (v ∉ s.stack → w ∉ s.stack)
    by_cases hvn : v = n
    · subst hvn
      obtain ⟨hvw, hle⟩ := h.topSeen hf hw
      exact ⟨hvw, fun _ => hle, fun hoff => absurd (h.nodesStack v hn) hoff⟩
    · refine h.leftSeen v hv (fun hm => ?_) w hw
      rw [hnodes] at hm
      exact (List.mem_cons.mp hm).elim hvn hleft

theorem popTo_of_mem {stack : List α} (hn : n ∈ stack) :
    ∃ above rest, stack = above ++ n :: rest ∧ popTo n stack = (above ++ [n], rest) := by
  induction stack with
  | nil => cases hn
  | cons w stack ih =>
    rw [popTo]
    split
    · rename_i hwn
      exact ⟨[], stack, by rw [hwn, List.nil_append], by rw [hwn, List.nil_append]⟩
    · rename_i hwn
      obtain ⟨above, rest, hstack, hpop⟩ :=
        ih ((List.mem_cons.mp hn).resolve_left fun h => hwn h.symm)
      exact ⟨w :: above, rest, by rw [hstack, List.cons_append], by rw [hpop, List.cons_append]⟩

/-- What is popped with `n` is what was entered no earlier than `n`. -/
theorem Inv.mem_popTo (h : Inv succ s) (hn : n ∈ s.stack) (v : α) :
    (v ∈ (popTo n s.stack).1 ↔ v ∈ s.stack ∧ idx s n ≤ idx s v) ∧
      (v ∈ (popTo n s.stack).2 ↔ v ∈ s.stack ∧ idx s v < idx s n) := by
  obtain ⟨above, rest, hstack, hpop⟩ := popTo_of_mem hn
  have hsorted := h.stackSorted
  rw [hstack, List.pairwise_append, List.pairwise_cons] at hsorted
  obtain ⟨-, ⟨hrest, -⟩, habove⟩ := hsorted
  have habove : ∀ u ∈ above, idx s n < idx s u := fun u hu => habove u hu n List.mem_cons_self
  rw [hpop, hstack]
  simp only [List.mem_append, List.mem_cons, List.not_mem_nil, or_false]
  constructor
  · constructor
    · rintro (hv | rfl)
      · exact ⟨.inl hv, (habove v hv).le⟩
      · exact ⟨.inr (.inl rfl), Nat.le_refl _⟩
    · rintro ⟨hv | rfl | hv, hle⟩
      · exact .inl hv
      · exact .inr rfl
      · exact absurd (hrest v hv) (Nat.not_lt.mpr hle)
  · constructor
    · exact fun hv => ⟨.inr (.inr hv), hrest v hv⟩
    · rintro ⟨hv | rfl | hv, hlt⟩
      · exact absurd (habove v hv) (Nat.lt_asymm hlt)
      · exact absurd hlt (Nat.lt_irrefl _)
      · exact hv

section Component

variable {n : α} {frames : List (α × List α)}

omit [DecidableEq α] in
/-- The nodes entered no earlier than the first node of a component have no low link below it. -/
theorem Inv.le_low (h : Inv succ s) (hf : s.frames = (n, []) :: frames) (hroot : s.low n = idx s n)
    (hv : v ∈ s.stack) (hle : idx s n ≤ idx s v) : idx s n ≤ s.low v := by
  have hn : n ∈ nodes s := by
    rw [nodes, hf]
    exact List.mem_cons_self
  rw [← hroot]
  refine h.segment n hn v hv hle fun m hm _ => ?_
  have hsorted := h.nodesSorted
  rw [nodes, hf] at hm hsorted
  rcases List.mem_cons.mp hm with rfl | hm
  · exact Nat.le_refl _
  · exact ((List.pairwise_cons.mp hsorted).1 m hm).le

omit [DecidableEq α] in
/-- The successors of such a node are nodes of the component, or have left the stack before. -/
theorem Inv.component_closed (h : Inv succ s) (hf : s.frames = (n, []) :: frames)
    (hroot : s.low n = idx s n) (hv : v ∈ s.stack) (hle : idx s n ≤ idx s v) (hw : w ∈ succ v) :
    Visited s w ∧ (w ∈ s.stack → idx s n ≤ idx s w) := by
  have hnodes : nodes s = n :: frames.map Prod.fst := by
    rw [nodes, hf]
    rfl
  by_cases hvn : v = n
  · subst hvn
    obtain ⟨hvw, hlow⟩ := h.topSeen hf hw
    exact ⟨hvw, fun hws => hroot ▸ hlow hws⟩
  · have hleft : v ∉ nodes s := by
      intro hm
      have hsorted := h.nodesSorted
      rw [hnodes] at hm hsorted
      rcases List.mem_cons.mp hm with hm | hm
      · exact hvn hm
      · exact Nat.not_le.mpr ((List.pairwise_cons.mp hsorted).1 v hm) hle
    obtain ⟨hvw, hlow, -⟩ := h.leftSeen v (h.stackVisited v hv) hleft w hw
    exact ⟨hvw, fun hws => (h.le_low hf hroot hv hle).trans (hlow hv hws)⟩

omit [DecidableEq α] in
/-- Every node of the component reaches its first node: the low links lead down to it. -/
theorem Inv.component_reaches (h : Inv succ s) (hf : s.frames = (n, []) :: frames)
    (hroot : s.low n = idx s n) (hv : v ∈ s.stack) (hle : idx s n ≤ idx s v) :
    ReflTransGen (Edge succ) v n := by
  have hn : n ∈ nodes s := by
    rw [nodes, hf]
    exact List.mem_cons_self
  generalize hk : idx s v = k at hle
  induction k using Nat.strong_induction_on generalizing v with
  | _ k ih =>
    by_cases hvn : v = n
    · rw [hvn]
    · obtain ⟨u, hu, hidx, hreach⟩ := h.lowReached v hv
      have hle' : idx s n ≤ idx s v := hk ▸ hle
      have hleft : v ∉ nodes s := by
        intro hm
        refine hvn (h.idx_inj hv (h.nodesStack n hn) (Nat.le_antisymm ?_ hle'))
        have hsorted := h.nodesSorted
        rw [nodes, hf] at hm hsorted
        rcases List.mem_cons.mp hm with rfl | hm
        · exact Nat.le_refl _
        · exact ((List.pairwise_cons.mp hsorted).1 v hm).le
      have hlt := h.leftLow v hv hleft
      have hlow := h.le_low hf hroot hv hle'
      exact hreach.trans (ih (idx s u) (by omega) hu rfl (by omega))

omit [DecidableEq α] in
/-- Nodes that have left the stack lead only to such nodes. -/
theorem Inv.left_closed (h : Inv succ s) (hv : Visited s v) (hoff : v ∉ s.stack)
    (hvw : ReflTransGen (Edge succ) v w) : Visited s w ∧ w ∉ s.stack := by
  induction hvw with
  | refl => exact ⟨hv, hoff⟩
  | tail _ hstep ih =>
    obtain ⟨hvis, -, hstay⟩ :=
      h.leftSeen _ ih.1 (fun hm => ih.2 (h.nodesStack _ hm)) _ hstep
    exact ⟨hvis, hstay ih.2⟩

/-- The nodes of a component that are collected are those on a cycle. -/
theorem Inv.mem_cyclePart (h : Inv succ s) (hf : s.frames = (n, []) :: frames)
    (hroot : s.low n = idx s n) (v : α) :
    v ∈ cyclePart succ n (popTo n s.stack).1 ↔
      (v ∈ s.stack ∧ idx s n ≤ idx s v) ∧ OnCycle succ v := by
  have hn : n ∈ nodes s := by
    rw [nodes, hf]
    exact List.mem_cons_self
  have hns : n ∈ s.stack := h.nodesStack n hn
  have hcomp : ∀ u, u ∈ (popTo n s.stack).1 ↔ u ∈ s.stack ∧ idx s n ≤ idx s u := fun u =>
    (h.mem_popTo hns u).1
  have hnodup : (popTo n s.stack).1.Nodup := by
    obtain ⟨above, rest, hstack, hpop⟩ := popTo_of_mem hns
    have hnd : s.stack.Nodup := by
      show s.stack.Pairwise (· ≠ ·)
      refine h.stackSorted.imp fun {a b} hab heq => ?_
      rw [heq] at hab
      exact Nat.lt_irrefl _ hab
    rw [hstack, List.append_cons] at hnd
    rw [hpop]
    exact hnd.of_append_left
  rw [cyclePart]
  split
  · rename_i hlen
    rw [List.mem_toFinset, hcomp v]
    refine ⟨fun hv => ⟨hv, ?_⟩, fun hv => hv.1⟩
    -- Another node of the component: the path there and back is a cycle.
    obtain ⟨u, hu, huv⟩ : ∃ u ∈ (popTo n s.stack).1, u ≠ v := by
      by_contra hall
      push Not at hall
      have hsub : (popTo n s.stack).1.toFinset ⊆ {v} := fun u hu =>
        Finset.mem_singleton.mpr (hall u (List.mem_toFinset.mp hu))
      have := Finset.card_le_card hsub
      rw [List.toFinset_card_of_nodup hnodup, Finset.card_singleton] at this
      omega
    have hu := (hcomp u).mp hu
    have hto : ReflTransGen (Edge succ) v u :=
      (h.component_reaches hf hroot hv.1 hv.2).trans (h.nodesReach n hn u hu.1 hu.2)
    have hback : ReflTransGen (Edge succ) u v :=
      (h.component_reaches hf hroot hu.1 hu.2).trans (h.nodesReach n hn v hv.1 hv.2)
    rcases reflTransGen_iff_eq_or_transGen.mp hto with heq | hto
    · exact absurd heq huv
    · exact hto.trans_left hback
  · rename_i hlen
    have hsingle : ∀ u, u ∈ s.stack ∧ idx s n ≤ idx s u ↔ u = n := by
      intro u
      rw [← hcomp u]
      have hmem : n ∈ (popTo n s.stack).1 := (hcomp n).mpr ⟨hns, Nat.le_refl _⟩
      obtain ⟨x, hx⟩ : ∃ x, (popTo n s.stack).1 = [x] := by
        refine List.length_eq_one_iff.mp ?_
        have := List.length_pos_of_mem hmem
        omega
      rw [hx, List.mem_singleton] at hmem ⊢
      rw [hmem]
    rw [hsingle v]
    split
    · rename_i hself
      rw [Finset.mem_singleton]
      exact ⟨fun hv => ⟨hv, hv ▸ TransGen.single hself⟩, fun hv => hv.1⟩
    · rename_i hself
      refine iff_of_false (Finset.notMem_empty v) ?_
      rintro ⟨rfl, hcyc⟩
      -- The first step of a cycle leads to a node that comes back, so to the node itself.
      obtain ⟨u, hstep, hback⟩ := TransGen.head'_iff.mp hcyc
      obtain ⟨hvis, hin⟩ := h.component_closed hf hroot hns (Nat.le_refl _) hstep
      by_cases hus : u ∈ s.stack
      · obtain rfl := (hsingle u).mp ⟨hus, hin hus⟩
        exact hself hstep
      · exact (h.left_closed hvis hus hback).2 hns

/-- Leave the first node of a component. -/
theorem Inv.popComponent (h : Inv succ s) (hf : s.frames = (n, []) :: frames)
    (hroot : s.low n = idx s n) : Inv succ (popComponent succ n { s with frames }) := by
  set s' := Tarjan.popComponent succ n { s with frames } with hs'
  have hnodes : nodes s = n :: nodes s' := by
    rw [nodes, hf]
    rfl
  have hn : n ∈ nodes s := by
    rw [hnodes]
    exact List.mem_cons_self
  have hns : n ∈ s.stack := h.nodesStack n hn
  have hstack : ∀ v, v ∈ s'.stack ↔ v ∈ s.stack ∧ idx s v < idx s n := fun v =>
    (h.mem_popTo hns v).2
  have hsub : ∀ m ∈ nodes s', m ∈ nodes s := by
    intro m hm
    rw [hnodes]
    exact List.mem_cons_of_mem n hm
  obtain ⟨hbelow, hsorted⟩ : (∀ m ∈ nodes s', idx s m < idx s n) ∧
      (nodes s').Pairwise fun a b => idx s b < idx s a := by
    have := h.nodesSorted
    rwa [hnodes, List.pairwise_cons] at this
  have hnear : ∀ v, idx s v < idx s n → ∀ m ∈ nodes s, idx s m ≤ idx s v → m ∈ nodes s' := by
    intro v hv m hm hmv
    rw [hnodes] at hm
    refine (List.mem_cons.mp hm).resolve_left fun hmn => ?_
    rw [hmn] at hmv
    omega
  constructor
  · obtain ⟨above, rest, hst, hpop⟩ := popTo_of_mem hns
    have hsort := h.stackSorted
    rw [hst, List.pairwise_append, List.pairwise_cons] at hsort
    have hrest : s'.stack = rest := congrArg Prod.snd hpop
    rw [hrest]
    exact hsort.2.1.2
  · exact fun v hv => h.stackVisited v ((hstack v).mp hv).1
  · exact h.indexLt
  · exact hsorted
  · exact fun m hm => (hstack m).mpr ⟨h.nodesStack m (hsub m hm), hbelow m hm⟩
  · intro v hv
    obtain ⟨hv, hlt⟩ := (hstack v).mp hv
    obtain ⟨m, hm, hmv⟩ := h.rooted v hv
    exact ⟨m, hnear v hlt m hm hmv, hmv⟩
  · exact fun v hv => h.lowLe v ((hstack v).mp hv).1
  · intro v hv
    obtain ⟨hv, hlt⟩ := (hstack v).mp hv
    obtain ⟨u, hu, hidx, hr⟩ := h.lowReached v hv
    have := h.lowLe v hv
    exact ⟨u, (hstack u).mpr ⟨hu, by omega⟩, hidx, hr⟩
  · intro v hv hleft
    obtain ⟨hv, hlt⟩ := (hstack v).mp hv
    exact h.leftLow v hv fun hm => hleft (hnear v hlt v hm (Nat.le_refl _))
  · exact fun m hm v hv => h.nodesReach m (hsub m hm) v ((hstack v).mp hv).1
  · intro m hm v hv hmv hmax
    obtain ⟨hv, hlt⟩ := (hstack v).mp hv
    exact h.segment m (hsub m hm) v hv hmv fun g hg hgv => hmax g (hnear v hlt g hg hgv) hgv
  · have hseen : FramesSeen succ s (some n) frames := by
      have := h.framesSeen
      rw [hf] at this
      exact this.2
    have hmono : FramesSeen succ s' (some n) frames :=
      hseen.mono (fun _ hv => hv) (fun _ _ => rfl) (fun w _ hw => ((hstack w).mp hw).1)
        fun _ _ => Nat.le_refl _
    show FramesSeen succ s' none frames
    cases hfr : frames with
    | nil => trivial
    | cons f frames' =>
      obtain ⟨p, ws⟩ := f
      rw [hfr] at hmono
      obtain ⟨⟨pre, hpre, hpreSeen⟩, hrest⟩ := hmono
      refine ⟨⟨pre, hpre, fun w hw => ?_⟩, hrest⟩
      obtain ⟨hvw, hlow⟩ := hpreSeen w hw
      refine ⟨hvw, fun hws => .inl ((hlow hws).resolve_right fun hact => ?_)⟩
      obtain rfl : n = w := Option.some.inj hact
      exact Nat.lt_irrefl _ ((hstack n).mp hws).2
  · intro v hv hleft w hw
    show Visited s w ∧ (v ∈ s'.stack → w ∈ s'.stack → s.low v ≤ idx s w) ∧
      (v ∉ s'.stack → w ∉ s'.stack)
    by_cases hcomp : v ∈ s.stack ∧ idx s n ≤ idx s v
    · obtain ⟨hvw, hin⟩ := h.component_closed hf hroot hcomp.1 hcomp.2 hw
      refine ⟨hvw, fun hvs => ?_, fun _ hws => ?_⟩
      · exact absurd ((hstack v).mp hvs).2 (Nat.not_lt.mpr hcomp.2)
      · obtain ⟨hws, hlt⟩ := (hstack w).mp hws
        exact absurd hlt (Nat.not_lt.mpr (hin hws))
    · have hvn : v ≠ n := fun hvn => hcomp ⟨hvn ▸ hns, hvn ▸ Nat.le_refl _⟩
      have hvleft : v ∉ nodes s := by
        rw [hnodes, List.mem_cons, not_or]
        exact ⟨hvn, hleft⟩
      obtain ⟨hvw, hlow, hoff⟩ := h.leftSeen v hv hvleft w hw
      refine ⟨hvw, fun hvs hws => ?_, fun hvs hws => ?_⟩
      · exact hlow ((hstack v).mp hvs).1 ((hstack w).mp hws).1
      · refine hoff (fun hvs' => hvs ((hstack v).mpr ⟨hvs', ?_⟩)) ((hstack w).mp hws).1
        by_contra hlt
        exact hcomp ⟨hvs', Nat.not_lt.mp hlt⟩
  · intro v
    show v ∈ s.out ∪ cyclePart succ n (popTo n s.stack).1 ↔ _
    rw [Finset.mem_union, h.mem_cyclePart hf hroot v, h.out v, hstack v]
    show _ ↔ Visited s v ∧ _
    constructor
    · rintro (⟨hv, hoff, hcyc⟩ | ⟨⟨hv, hle⟩, hcyc⟩)
      · exact ⟨hv, fun hin => hoff hin.1, hcyc⟩
      · exact ⟨h.stackVisited v hv, fun hin => Nat.not_le.mpr hin.2 hle, hcyc⟩
    · rintro ⟨hv, hoff, hcyc⟩
      by_cases hvs : v ∈ s.stack
      · exact .inr ⟨⟨hvs, Nat.not_lt.mp fun hlt => hoff ⟨hvs, hlt⟩⟩, hcyc⟩
      · exact .inl ⟨hv, hvs, hcyc⟩

end Component

/-! ### The search -/

theorem lowerParent_eq_self (h : ∀ f ∈ s.frames, s.low f.1 ≤ s.low n) : lowerParent n s = s := by
  rw [lowerParent]
  split
  · rfl
  · rename_i p ws fs hf
    have hle : s.low p ≤ s.low n := h (p, ws) (hf ▸ List.mem_cons_self)
    rw [Nat.min_eq_left hle, Function.update_eq_self]

section Top

variable {n w : α} {ws : List α} {frames : List (α × List α)}

omit [DecidableEq α] in
theorem mem_nodes_top {rest : List α} (hf : s.frames = (n, rest) :: frames) : n ∈ nodes s := by
  rw [nodes, hf]
  exact List.mem_cons_self

omit [DecidableEq α] in
/-- The frames below the top search nodes that were entered before. -/
theorem Inv.below_top (h : Inv succ s) {rest : List α} (hf : s.frames = (n, rest) :: frames) :
    ∀ f ∈ frames, f.1 ∈ nodes s ∧ idx s f.1 < idx s n := by
  intro f hfm
  have hnodes : nodes s = n :: frames.map Prod.fst := by
    rw [nodes, hf]
    rfl
  have hsorted := h.nodesSorted
  have hmem : f.1 ∈ frames.map Prod.fst := List.mem_map_of_mem hfm
  rw [hnodes] at hsorted ⊢
  exact ⟨List.mem_cons_of_mem n hmem, (List.pairwise_cons.mp hsorted).1 f.1 hmem⟩

omit [DecidableEq α] in
theorem Inv.edge_top (h : Inv succ s) (hf : s.frames = (n, w :: ws) :: frames) : w ∈ succ n := by
  have hseen := h.framesSeen
  rw [hf] at hseen
  obtain ⟨⟨pre, hpre, -⟩, -⟩ := hseen
  rw [hpre]
  exact List.mem_append_right _ List.mem_cons_self

/-- The edge at the top leads to a node that was not entered yet. -/
theorem Inv.step_enter (h : Inv succ s) (hf : s.frames = (n, w :: ws) :: frames)
    (hw : ¬ Visited s w) :
    Inv succ (Tarjan.enter succ w { s with frames := (n, ws) :: frames }) := by
  have hn := mem_nodes_top hf
  have hne : ∀ v, Visited s v → v ≠ w := fun v hv hvw => hw (hvw ▸ hv)
  refine h.enter (by rw [nodes, hf]; rfl) hw (fun m hm => ?_) ?_
  · have hmn : idx s m ≤ idx s n := by
      rw [nodes, hf] at hm
      rcases List.mem_cons.mp hm with rfl | hm
      · exact Nat.le_refl _
      · obtain ⟨f, hfm, rfl⟩ := List.mem_map.mp hm
        exact (h.below_top hf f hfm).2.le
    exact (h.nodesReach m hm n (h.nodesStack n hn) hmn).tail (h.edge_top hf)
  · -- The edge to the new node is the one that is being searched.
    have hseen := h.framesSeen
    rw [hf] at hseen
    obtain ⟨⟨pre, hpre, hpreSeen⟩, hrest⟩ := hseen
    set s' := Tarjan.enter succ w { s with frames := (n, ws) :: frames } with hs'
    have hvis : ∀ v, Visited s v → Visited s' v := fun v hv => visited_enter.mpr (.inr hv)
    have hidx : ∀ v, Visited s v → idx s' v = idx s v := fun v hv => idx_enter_of_ne (hne v hv)
    have hstack : ∀ v, Visited s v → v ∈ s'.stack → v ∈ s.stack := fun v hv hm =>
      (List.mem_cons.mp hm).resolve_left (hne v hv)
    have hlow : ∀ m ∈ nodes s, s'.low m = s.low m := fun m hm =>
      low_enter_of_ne (hne m (h.stackVisited m (h.nodesStack m hm)))
    refine ⟨⟨pre ++ [w], by rw [hpre, List.append_assoc, List.singleton_append], ?_⟩, ?_⟩
    · intro v hv
      rcases List.mem_append.mp hv with hv | hv
      · obtain ⟨hvv, hle⟩ := hpreSeen v hv
        refine ⟨hvis v hvv, fun hvs => .inl ?_⟩
        rw [hlow n hn, hidx v hvv]
        exact (hle (hstack v hvv hvs)).resolve_right nofun
      · rw [List.mem_singleton.mp hv]
        exact ⟨visited_enter.mpr (.inl rfl), fun _ => .inr rfl⟩
    · exact hrest.mono hvis hidx hstack fun f hfm => (hlow f.1 (h.below_top hf f hfm).1).le

/-- The edge at the top leads to a node on the stack. -/
theorem Inv.step_lower (h : Inv succ s) (hf : s.frames = (n, w :: ws) :: frames)
    (hws : w ∈ s.stack) :
    Inv succ { s with
      frames := (n, ws) :: frames
      low := Function.update s.low n (min (s.low n) (idx s w)) } := by
  have hn := mem_nodes_top hf
  have hlower : Inv succ { s with low := Function.update s.low n (min (s.low n) (idx s w)) } := by
    refine h.lower hn (Nat.min_le_left _ _) ?_
    rcases Nat.le_total (s.low n) (idx s w) with hle | hle
    · rw [Nat.min_eq_left hle]
      exact h.lowReached n (h.nodesStack n hn)
    · rw [Nat.min_eq_right hle]
      exact ⟨w, hws, rfl, .single (h.edge_top hf)⟩
  refine hlower.advance hf ⟨h.stackVisited w hws, fun _ => .inl ?_⟩
  show Function.update s.low n (min (s.low n) (idx s w)) n ≤ idx s w
  rw [Function.update_self]
  exact Nat.min_le_right _ _

/-- The node at the top is left, and it is not the first of its component. -/
theorem Inv.step_leave (h : Inv succ s) (hf : s.frames = (n, []) :: frames)
    (hlt : s.low n < idx s n) : Inv succ (lowerParent n { s with frames }) := by
  have hn := mem_nodes_top hf
  have hns := h.nodesStack n hn
  obtain ⟨u, hu, hidxu, hreach⟩ := h.lowReached n hns
  -- The node reaches an earlier one, so it was entered from another node.
  obtain ⟨p, ws, fs, rfl⟩ : ∃ p ws fs, frames = (p, ws) :: fs := by
    obtain ⟨m, hm, hmu⟩ := h.rooted u hu
    cases frames with
    | nil =>
      rw [nodes, hf] at hm
      obtain rfl : m = n := List.mem_singleton.mp hm
      omega
    | cons f fs => exact ⟨f.1, f.2, fs, rfl⟩
  obtain ⟨hp, hpn⟩ := h.below_top hf (p, ws) List.mem_cons_self
  have hne : n ≠ p := fun hnp => Nat.lt_irrefl (idx s n) (hnp ▸ hpn)
  have hlower : Inv succ { s with low := Function.update s.low p (min (s.low p) (s.low n)) } := by
    refine h.lower hp (Nat.min_le_left _ _) ?_
    rcases Nat.le_total (s.low p) (s.low n) with hle | hle
    · rw [Nat.min_eq_left hle]
      exact h.lowReached p (h.nodesStack p hp)
    · rw [Nat.min_eq_right hle]
      exact ⟨u, hu, hidxu, (h.nodesReach p hp n hns hpn.le).trans hreach⟩
  have hlow : Function.update s.low p (min (s.low p) (s.low n)) n = s.low n :=
    Function.update_of_ne hne _ _
  refine hlower.leave hf ?_ ?_
  · show Function.update s.low p _ n < idx s n
    rw [hlow]
    exact hlt
  · show Function.update s.low p _ p ≤ Function.update s.low p _ n
    rw [hlow, Function.update_self]
    exact Nat.min_le_right _ _

end Top

theorem Inv.step (h : Inv succ s) : Inv succ (step succ s) := by
  rw [Tarjan.step]
  split
  · exact h
  · rename_i n w ws frames hf
    dsimp only
    split
    · rename_i hnone
      exact h.step_enter hf (not_not.mpr hnone)
    · rename_i k hk
      have hk : s.index w = some k := hk
      have hidx : idx s w = k := by
        rw [idx, hk, Option.getD_some]
      split
      · rename_i hws
        rw [← hidx]
        exact h.step_lower hf hws
      · rename_i hws
        refine h.advance hf ⟨?_, fun hin => absurd hin hws⟩
        rw [Visited, hk]
        nofun
  · rename_i n frames hf
    have hns := h.nodesStack n (mem_nodes_top hf)
    have hidx : s.index n = some (idx s n) := by
      obtain ⟨k, hk⟩ := Option.ne_none_iff_exists'.mp (h.stackVisited n hns)
      rw [idx, hk, Option.getD_some]
    dsimp only
    split
    · rename_i hroot
      have hroot : s.low n = idx s n := Option.some.inj (hroot.symm.trans hidx)
      rw [lowerParent_eq_self]
      · exact h.popComponent hf hroot
      · intro f hfm
        obtain ⟨hfn, hlt⟩ := h.below_top hf f hfm
        show s.low f.1 ≤ s.low n
        have := h.lowLe f.1 (h.nodesStack f.1 hfn)
        omega
    · rename_i hroot
      have hne : s.low n ≠ idx s n := fun heq => hroot (heq ▸ hidx)
      exact h.step_leave hf (Nat.lt_of_le_of_ne (h.lowLe n hns) hne)

theorem Inv.iterate (h : Inv succ s) (n : ℕ) : Inv succ ((Tarjan.step succ)^[n] s) :=
  Function.Iterate.rec (Inv succ) h (fun _ hs => hs.step) n

theorem lowerParent_index (n : α) : (lowerParent n s).index = s.index := by
  rw [lowerParent]
  split <;> rfl

theorem lowerParent_frames (n : α) : (lowerParent n s).frames = s.frames := by
  rw [lowerParent]
  split <;> rfl

/-- A step either enters a node or leaves the indices alone. -/
theorem step_index (s : State α) :
    (Tarjan.step succ s).index = s.index ∨ ∃ w s', s'.index = s.index ∧
      Tarjan.step succ s = Tarjan.enter succ w s' ∧ s.index w = none := by
  rw [Tarjan.step]
  split
  · exact .inl rfl
  · rename_i n w ws frames hf
    dsimp only
    split
    · rename_i hnone
      exact .inr ⟨w, { s with frames := (n, ws) :: frames }, rfl, rfl, hnone⟩
    · split <;> exact .inl rfl
  · dsimp only
    rw [lowerParent_index]
    split <;> exact .inl rfl

theorem visited_step (hv : Visited s v) : Visited (Tarjan.step succ s) v := by
  rcases step_index s with heq | ⟨w, s', heq, hstep, -⟩
  · rwa [Visited, heq]
  · rw [hstep]
    refine visited_enter.mpr (.inr ?_)
    rwa [Visited, heq]

theorem visited_iterate (n : ℕ) (hv : Visited s v) : Visited ((Tarjan.step succ)^[n] s) v :=
  Function.Iterate.rec (fun s => Visited s v) hv (fun _ hs => visited_step hs) n

/-- The steps that a node takes: one for each edge, and one to leave it. -/
def weight (succ : α → List α) (v : α) : ℕ := (succ v).length + 1

/-- The steps that are left, when every node that can be reached is in `U`. -/
def cost (succ : α → List α) (U : Finset α) (s : State α) : ℕ :=
  ∑ v ∈ U with s.index v = none, weight succ v + (s.frames.map fun f => f.2.length + 1).sum

section Cost

variable {U : Finset α}

theorem cost_enter (hw : w ∈ U) (hnone : s.index w = none) :
    cost succ U (Tarjan.enter succ w s) = cost succ U s := by
  have hfilter : (U.filter fun v => (Tarjan.enter succ w s).index v = none) =
      (U.filter fun v => s.index v = none).erase w := by
    ext v
    rw [Finset.mem_filter, Finset.mem_erase, Finset.mem_filter]
    by_cases hv : v = w
    · simp [Tarjan.enter, hv]
    · simp [Tarjan.enter, hv]
  have hmem : w ∈ U.filter fun v => s.index v = none := Finset.mem_filter.mpr ⟨hw, hnone⟩
  have hframes : (Tarjan.enter succ w s).frames = (w, succ w) :: s.frames := rfl
  have hsum := Finset.sum_erase_add (U.filter fun v => s.index v = none) (weight succ) hmem
  rw [cost, cost, hfilter, hframes, List.map_cons, List.sum_cons]
  rw [show weight succ w = (succ w).length + 1 from rfl] at hsum
  dsimp only
  omega

/-- The successors that are left lie in `U`. -/
def Inside (U : Finset α) (s : State α) : Prop := ∀ f ∈ s.frames, ∀ w ∈ f.2, w ∈ U

theorem step_cost (hU : ∀ v ∈ U, ∀ w ∈ succ v, w ∈ U) (hin : Inside U s) :
    Inside U (Tarjan.step succ s) ∧
      (s.frames ≠ [] → cost succ U (Tarjan.step succ s) + 1 = cost succ U s) := by
  rw [Tarjan.step]
  split
  · rename_i hf
    exact ⟨hin, fun hne => absurd hf hne⟩
  · rename_i n w ws frames hf
    have hwU : w ∈ U := hin (n, w :: ws) (hf ▸ List.mem_cons_self) w List.mem_cons_self
    set s' : State α := { s with frames := (n, ws) :: frames } with hs'
    have hin' : Inside U s' := by
      intro f hfm u hu
      rcases List.mem_cons.mp hfm with rfl | hfm
      · exact hin (n, w :: ws) (hf ▸ List.mem_cons_self) u (List.mem_cons_of_mem w hu)
      · exact hin f (hf ▸ List.mem_cons_of_mem _ hfm) u hu
    have hcost : cost succ U s' + 1 = cost succ U s := by
      rw [cost, cost, hf]
      simp only [hs', List.map_cons, List.sum_cons, List.length_cons]
      omega
    dsimp only
    split
    · rename_i hnone
      refine ⟨fun f hfm u hu => ?_, fun _ => by rw [cost_enter hwU hnone, hcost]⟩
      rcases List.mem_cons.mp hfm with rfl | hfm
      · exact hU w hwU u hu
      · exact hin' f hfm u hu
    · split <;> exact ⟨hin', fun _ => hcost⟩
  · rename_i n frames hf
    set s' : State α := { s with frames := frames } with hs'
    have hin' : Inside U s' := fun f hfm => hin f (hf ▸ List.mem_cons_of_mem _ hfm)
    have hcost : cost succ U s' + 1 = cost succ U s := by
      rw [cost, cost, hf]
      simp only [hs', List.map_cons, List.sum_cons, List.length_nil]
      omega
    have hleave : ∀ t : State α, t.index = s'.index → t.frames = s'.frames →
        Inside U (lowerParent n t) ∧ cost succ U (lowerParent n t) + 1 = cost succ U s := by
      intro t hti htf
      refine ⟨?_, ?_⟩
      · rw [Inside, lowerParent_frames, htf]
        exact hin'
      · rw [cost, lowerParent_frames, lowerParent_index, hti, htf]
        exact hcost
    dsimp only
    split
    · obtain ⟨hin'', hcost'⟩ := hleave (popComponent succ n s') rfl rfl
      exact ⟨hin'', fun _ => hcost'⟩
    · obtain ⟨hin'', hcost'⟩ := hleave s' rfl rfl
      exact ⟨hin'', fun _ => hcost'⟩

theorem iterate_frames (hU : ∀ v ∈ U, ∀ w ∈ succ v, w ∈ U) {n : ℕ} (hin : Inside U s)
    (hn : cost succ U s ≤ n) : ((Tarjan.step succ)^[n] s).frames = [] := by
  induction n generalizing s with
  | zero =>
    cases hf : s.frames with
    | nil => exact hf
    | cons f frames =>
      rw [cost, hf, List.map_cons, List.sum_cons] at hn
      omega
  | succ n ih =>
    obtain ⟨hin', hcost⟩ := step_cost hU hin
    by_cases hf : s.frames = []
    · have hstay : Tarjan.step succ s = s := by rw [Tarjan.step, hf]
      rw [Function.iterate_fixed hstay, hf]
    · have := hcost hf
      exact ih hin' (by omega)

omit [DecidableEq α] in
theorem cost_le_of_frames_eq_nil (hf : s.frames = []) :
    cost succ U s ≤ ∑ v ∈ U, weight succ v := by
  rw [cost, hf, List.map_nil, List.sum_nil, Nat.add_zero]
  exact Finset.sum_le_sum_of_subset (Finset.filter_subset _ _)

/-- One root: what can be reached from it is searched, and nothing is left to do. -/
theorem searchFrom_spec (hU : ∀ v ∈ U, ∀ w ∈ succ v, w ∈ U) {fuel : ℕ}
    (hfuel : ∑ v ∈ U, weight succ v ≤ fuel) (h : Inv succ s) (hf : s.frames = []) {root : α}
    (hroot : root ∈ U) :
    Inv succ (searchFrom succ fuel s root) ∧ (searchFrom succ fuel s root).frames = [] ∧
      Visited (searchFrom succ fuel s root) root ∧
      ∀ v, Visited s v → Visited (searchFrom succ fuel s root) v := by
  rw [searchFrom]
  split
  · rename_i k hk
    refine ⟨h, hf, ?_, fun _ hv => hv⟩
    rw [Visited, hk]
    nofun
  · rename_i hnone
    have hnodes : nodes s = [] := by rw [nodes, hf, List.map_nil]
    have henter : Inv succ (Tarjan.enter succ root s) := by
      have hreach : ∀ n ∈ nodes s, ReflTransGen (Edge succ) n root := by
        rw [hnodes]
        exact fun _ hm => absurd hm List.not_mem_nil
      have hseen : FramesSeen succ (Tarjan.enter succ root { s with frames := s.frames })
          (some root) s.frames := by
        rw [hf]
        trivial
      exact h.enter rfl (not_not.mpr hnone) hreach hseen
    have hin : Inside U (Tarjan.enter succ root s) := by
      intro f hfm w hw
      have : f = (root, succ root) := by
        have hfr : (Tarjan.enter succ root s).frames = (root, succ root) :: s.frames := rfl
        rw [hfr, hf] at hfm
        exact List.mem_singleton.mp hfm
      rw [this] at hw
      exact hU root hroot w hw
    refine ⟨henter.iterate fuel, iterate_frames hU hin ?_, ?_, ?_⟩
    · rw [cost_enter hroot hnone]
      exact (cost_le_of_frames_eq_nil hf).trans hfuel
    · exact visited_iterate fuel (visited_enter.mpr (.inl rfl))
    · exact fun v hv => visited_iterate fuel (visited_enter.mpr (.inr hv))

/-- The search collects the nodes on a cycle, when every node with a successor is a root. -/
theorem mem_cycleNodes (hU : ∀ v ∈ U, ∀ w ∈ succ v, w ∈ U) {fuel : ℕ}
    (hfuel : ∑ v ∈ U, weight succ v ≤ fuel) {roots : List α} (hroots : ∀ r ∈ roots, r ∈ U)
    (hsucc : ∀ v, succ v ≠ [] → v ∈ roots) (v : α) :
    v ∈ cycleNodes succ fuel roots ↔ OnCycle succ v := by
  have hfold : ∀ (l : List α) (s : State α), (∀ r ∈ l, r ∈ U) → Inv succ s → s.frames = [] →
      Inv succ (l.foldl (searchFrom succ fuel) s) ∧
        (l.foldl (searchFrom succ fuel) s).frames = [] ∧
        (∀ v, Visited s v → Visited (l.foldl (searchFrom succ fuel) s) v) ∧
        ∀ r ∈ l, Visited (l.foldl (searchFrom succ fuel) s) r := by
    intro l
    induction l with
    | nil => exact fun s _ h hf => ⟨h, hf, fun _ hv => hv, fun _ hr => absurd hr List.not_mem_nil⟩
    | cons r l ih =>
      intro s hl h hf
      obtain ⟨h', hf', hvr, hvs⟩ := searchFrom_spec hU hfuel h hf (hl r List.mem_cons_self)
      obtain ⟨h'', hf'', hvs', hvl⟩ :=
        ih _ (fun x hx => hl x (List.mem_cons_of_mem r hx)) h' hf'
      refine ⟨h'', hf'', fun v hv => hvs' v (hvs v hv), fun x hx => ?_⟩
      rcases List.mem_cons.mp hx with rfl | hx
      · exact hvs' x hvr
      · exact hvl x hx
  obtain ⟨h, hf, -, hvis⟩ := hfold roots init hroots inv_init rfl
  have hstack : (roots.foldl (searchFrom succ fuel) init).stack = [] := by
    refine List.eq_nil_iff_forall_not_mem.mpr fun v hv => ?_
    obtain ⟨n, hn, -⟩ := h.rooted v hv
    rw [nodes, hf] at hn
    cases hn
  rw [cycleNodes, h.out v, hstack]
  refine ⟨fun hv => hv.2.2, fun hcyc => ⟨hvis v (hsucc v fun hnil => ?_), List.not_mem_nil, hcyc⟩⟩
  obtain ⟨w, hw, -⟩ := TransGen.head'_iff.mp hcyc
  rw [Edge, hnil] at hw
  cases hw

end Cost

end Tarjan
