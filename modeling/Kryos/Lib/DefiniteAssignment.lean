import Mathlib.Data.List.Forall2
import Mathlib.Logic.Function.Basic
import Mathlib.Logic.Relation

/-!
# Definite assignment

Structured programs with lexical scopes, and a checker that walks over them once. The checker keeps
what it knows about the locals in one state, so at a join it has to take the state of one of the
paths. `kept` are the locals that this path assigns. Where a run comes to the join by another path,
the state is right only if these locals are assigned all the same, which is what `Settled` says.

`clean` is the verdict of the checker and `runs` are the executions, all of them or those that are
settled at every join. A run may also open scopes and bind names that the checker knows nothing of.
Then it is the names that have to be right (`Unshadowing`).
-/

namespace DefiniteAssignment

universe u

variable {ν : Type u} {κ : Type*}

/-- A scope says of each of its names whether it has been assigned. -/
abbrev Layer (ν : Type*) := ν → Option Bool

/-- The innermost scope comes first. Every scope has a tag. -/
abbrev Stack (κ ν : Type*) := List (κ × Layer ν)

def Layer.empty : Layer ν := fun _ => none

/-- What a name stands for: the entry of the innermost scope that has one. -/
def vis : Stack κ ν → ν → Option Bool
  | [], _ => none
  | (_, h) :: s, x => (h x).or (vis s x)

/-- No name of `K` stands for an unassigned local. -/
def Settled (K : List ν) (s : Stack κ ν) : Prop := ∀ x ∈ K, vis s x ≠ some false

/-- The same scopes with the same names, and the same entries but for those that the names not in
`N` stand for. -/
def Same (N : ν → Prop) : Stack κ ν → Stack κ ν → Prop
  | [], [] => True
  | (k, h) :: s, (k', h') :: s' =>
    k = k' ∧ (∀ x, (h x = none ↔ h' x = none) ∧ (N x → h x = h' x)) ∧
      Same (fun x => N x ∨ h x ≠ none) s s'
  | _, _ => False

theorem Same.refl (N : ν → Prop) (s : Stack κ ν) : Same N s s := by
  induction s generalizing N with
  | nil => trivial
  | cons f s ih => exact ⟨rfl, fun _ => ⟨Iff.rfl, fun _ => rfl⟩, ih _⟩

variable {s t : Stack κ ν}

theorem Same.eq {N : ν → Prop} (h : Same N s t) (hv : ∀ x, ¬ N x → vis s x = vis t x) : s = t := by
  induction s generalizing N t with
  | nil =>
    cases t with
    | nil => rfl
    | cons g t => exact h.elim
  | cons f s ih =>
    cases t with
    | nil => exact h.elim
    | cons g t =>
      obtain ⟨k, f⟩ := f
      obtain ⟨k', g⟩ := g
      obtain ⟨rfl, hd, hs⟩ := h
      have hfg : f = g := by
        funext x
        by_cases hN : N x
        · exact (hd x).2 hN
        · have hvx := hv x hN
          have hdx := (hd x).1
          cases hf : f x with
          | none => exact (hdx.1 hf).symm
          | some b =>
            have hg : g x ≠ none := fun hg => by simp [hdx.2 hg] at hf
            obtain ⟨c, hc⟩ := Option.ne_none_iff_exists'.1 hg
            simpa [vis, hf, hc] using hvx
      subst hfg
      congr 1
      refine ih hs fun x hx => ?_
      obtain ⟨hN, hf⟩ := not_or.1 hx
      have hf : f x = none := not_not.1 hf
      simpa [vis, hf] using hv x hN

theorem Same.vis_ne_none {N : ν → Prop} {x : ν} (h : Same N s t) (hx : vis s x ≠ none) :
    vis t x ≠ none := by
  induction s generalizing N t with
  | nil => exact absurd rfl hx
  | cons f s ih =>
    cases t with
    | nil => exact h.elim
    | cons g t =>
      obtain ⟨-, hd, hs⟩ := h
      cases hg : g.2 x with
      | none =>
        have hf := (hd x).1.2 hg
        simpa [vis, hg] using ih hs (by simpa [vis, hf] using hx)
      | some b => simp [vis, hg]

section Operations

variable [DecidableEq ν]

/-- Assign the locals that the names of `K` stand for. -/
def mark (K : List ν) : Stack κ ν → Stack κ ν
  | [] => []
  | (k, h) :: s => (k, fun x => if x ∈ K then (h x).map fun _ => true else h x) ::
      mark (K.filter fun x => (h x).isNone) s

def declare (x : ν) (init : Bool) : Stack κ ν → Stack κ ν
  | [] => []
  | (k, h) :: s => (k, Function.update h x (some init)) :: s

/-- Set the entry of the local that a name stands for. -/
def put (x : ν) (b : Bool) : Stack κ ν → Stack κ ν
  | [] => []
  | (k, h) :: s =>
    match h x with
    | some _ => (k, Function.update h x (some b)) :: s
    | none => (k, h) :: put x b s

@[simp] theorem mark_nil (s : Stack κ ν) : mark [] s = s := by
  induction s with
  | nil => rfl
  | cons f s ih => simp [mark, ih]

theorem mark_mark (K L : List ν) (s : Stack κ ν) : mark L (mark K s) = mark (K ++ L) s := by
  induction s generalizing K L with
  | nil => rfl
  | cons f s ih =>
    have hdom : ∀ x, (if x ∈ K then (f.2 x).map fun _ => true else f.2 x).isNone
        = (f.2 x).isNone := by
      intro x
      split <;> simp
    simp only [mark, hdom, ih, ← List.filter_append, List.mem_append]
    congr 2
    funext x
    by_cases hK : x ∈ K <;> by_cases hL : x ∈ L <;> simp [hK, hL]

theorem vis_mark (K : List ν) (s : Stack κ ν) (x : ν) :
    vis (mark K s) x = if x ∈ K then (vis s x).map fun _ => true else vis s x := by
  induction s generalizing K with
  | nil => simp [mark, vis]
  | cons f s ih =>
    rw [mark, vis, vis, ih]
    cases hf : f.2 x <;> by_cases hK : x ∈ K <;> simp [hf, hK]

theorem mark_singleton (x : ν) (s : Stack κ ν) : mark [x] s = put x true s := by
  induction s with
  | nil => rfl
  | cons f s ih =>
    obtain ⟨k, h⟩ := f
    cases hx : h x with
    | none =>
      have hf : (fun y => if y ∈ [x] then (h y).map fun _ => true else h y) = h := by
        funext y
        by_cases hy : y = x <;> simp [hy, hx]
      rw [mark, hf, put, hx]
      simp [hx, ih]
    | some b =>
      have hf : (fun y => if y ∈ [x] then (h y).map fun _ => true else h y)
          = Function.update h x (some true) := by
        funext y
        by_cases hy : y = x <;> simp [hy, hx]
      rw [mark, hf, put, hx]
      simp [hx]

theorem vis_put (x : ν) (b : Bool) (s : Stack κ ν) (y : ν) :
    vis (put x b s) y = if y = x then (vis s y).map fun _ => b else vis s y := by
  induction s with
  | nil => simp [put, vis]
  | cons f s ih =>
    obtain ⟨k, h⟩ := f
    cases hx : h x with
    | none =>
      rw [put, hx, vis, vis, ih]
      by_cases hy : y = x <;> simp [hy, hx]
    | some c =>
      rw [put, hx, vis, vis]
      by_cases hy : y = x <;> simp [hy, hx]

/-- Nothing changes where a name stands for nothing or for what it is set to. -/
theorem put_eq_self {x : ν} {b : Bool} (h : vis s x ≠ some !b) : put x b s = s := by
  induction s with
  | nil => rfl
  | cons f s ih =>
    obtain ⟨k, g⟩ := f
    cases hx : g x with
    | none => simp [put, hx, ih (by simpa [vis, hx] using h)]
    | some c =>
      have hc : c = b := by
        rw [vis, hx] at h
        cases b <;> cases c <;> simp_all
      have hu : Function.update g x (some b) = g := by rw [← hc, ← hx, Function.update_eq_self]
      simp [put, hx, hu]

theorem Same.put {N : ν → Prop} {x : ν} {b : Bool} {s t : Stack κ ν} (h : Same N s t) (hx : ¬ N x) :
    Same N s (put x b t) := by
  induction t generalizing N s with
  | nil => exact h
  | cons g t ih =>
    cases s with
    | nil => exact h.elim
    | cons f s =>
      obtain ⟨hk, hd, hs⟩ := h
      cases hg : g.2 x with
      | none =>
        rw [DefiniteAssignment.put, hg]
        refine ⟨hk, hd, ih hs ?_⟩
        rintro (hN | hf)
        · exact hx hN
        · exact hf ((hd x).1.2 hg)
      | some c =>
        rw [DefiniteAssignment.put, hg]
        refine ⟨hk, fun y => ?_, hs⟩
        have hdy := hd y
        by_cases hy : y = x
        · subst hy
          refine ⟨?_, fun hN => absurd hN hx⟩
          rw [hdy.1, hg]
          simp
        · simpa [hy] using hdy

theorem Same.mark {N : ν → Prop} {K : List ν} {s t : Stack κ ν} (h : Same N s t)
    (hK : ∀ x ∈ K, ¬ N x) : Same N s (mark K t) := by
  induction K generalizing t with
  | nil => rwa [mark_nil]
  | cons x K ih =>
    have hx := h.put (b := true) (hK x List.mem_cons_self)
    rw [← mark_singleton] at hx
    have hrest := ih hx fun y hy => hK y (List.mem_cons_of_mem x hy)
    rwa [mark_mark] at hrest

/-- Setting back every entry that a name stands for. -/
theorem Same.puts_eq (h : Same (fun _ => False) s t) {L : List (ν × Bool)}
    (hL : ∀ e ∈ L, vis s e.1 = some e.2) (hall : ∀ x, x ∈ L.map Prod.fst ∨ vis t x = vis s x) :
    L.foldl (fun t e => DefiniteAssignment.put e.1 e.2 t) t = s := by
  induction L generalizing t with
  | nil => exact (h.eq fun x _ => ((hall x).resolve_left nofun).symm).symm
  | cons e L ih =>
    refine ih (h.put not_false) (fun e' he' => hL e' (List.mem_cons_of_mem e he')) fun x => ?_
    rw [vis_put]
    by_cases hx : x = e.1
    · have hs := hL e List.mem_cons_self
      obtain ⟨c, hc⟩ := Option.ne_none_iff_exists'.1 (h.vis_ne_none (x := x) (by simp [hx, hs]))
      rw [if_pos hx, hc, hx, hs]
      exact .inr rfl
    · rw [if_neg hx]
      exact (hall x).imp_left fun hmem => (List.mem_cons.1 hmem).resolve_left hx

theorem settled_mark {K L : List ν} (h : Settled L s) : Settled L (mark K s) := by
  intro x hx
  rw [vis_mark]
  split
  · cases vis s x <;> simp
  · exact h x hx

theorem settled_mark_self (K : List ν) (s : Stack κ ν) : Settled K (mark K s) := by
  intro x hx
  rw [vis_mark, if_pos hx]
  cases vis s x <;> simp

theorem mark_ne_nil {K : List ν} (h : s ≠ []) : mark K s ≠ [] := by
  cases s with
  | nil => exact absurd rfl h
  | cons f s => simp [mark]

theorem declare_ne_nil {x : ν} {init : Bool} (h : s ≠ []) : declare x init s ≠ [] := by
  cases s with
  | nil => exact absurd rfl h
  | cons f s => simp [declare]

theorem vis_declare {k : κ} {h : Layer ν} (x y : ν) (init : Bool) :
    vis (declare x init ((k, h) :: s)) y = if y = x then some init else vis ((k, h) :: s) y := by
  by_cases hy : y = x
  · subst hy
    simp [declare, vis]
  · simp [declare, vis, hy]

end Operations

theorem settled_append {K L : List ν} : Settled (K ++ L) s ↔ Settled K s ∧ Settled L s := by
  simp only [Settled, List.mem_append, or_imp, forall_and]

/-! ### Growth -/

/-- Entries may become assigned, and nothing else changes. -/
def Grows (s s' : Stack κ ν) : Prop :=
  List.Forall₂ (fun f f' => f.1 = f'.1 ∧ ∀ x, f'.2 x = f.2 x ∨ (f.2 x = some false ∧ f'.2 x = some true))
    s s'

theorem Grows.refl (s : Stack κ ν) : Grows s s :=
  List.forall₂_same.2 fun _ _ => ⟨rfl, fun _ => .inl rfl⟩

theorem Grows.trans {u : Stack κ ν} (h₁ : Grows s t) (h₂ : Grows t u) : Grows s u := by
  induction h₁ generalizing u with
  | nil => exact h₂
  | cons hf _ ih =>
    cases h₂ with
    | cons hg h₂ =>
      refine .cons ⟨hf.1.trans hg.1, fun x => ?_⟩ (ih h₂)
      have hfx := hf.2 x
      have hgx := hg.2 x
      grind

theorem Grows.vis_eq (h : Grows s t) (x : ν) :
    vis t x = vis s x ∨ (vis s x = some false ∧ vis t x = some true) := by
  induction h with
  | nil => exact .inl rfl
  | @cons f g s t hf _ ih =>
    show (g.2 x).or (vis t x) = (f.2 x).or (vis s x) ∨ _
    have hfx := hf.2 x
    cases hx : f.2 x with
    | none =>
      have hg : g.2 x = none := by grind
      simpa [vis, hx, hg] using ih
    | some b => grind [vis]

theorem Grows.vis_ne (h : Grows s t) {x : ν} (hx : vis s x ≠ some false) :
    vis t x ≠ some false := by
  rcases h.vis_eq x with hv | ⟨hv, _⟩
  · rwa [hv]
  · exact absurd hv hx

theorem Grows.cons_inv {k : κ} {g : Layer ν} (h : Grows ((k, g) :: s) t) :
    ∃ g' t', t = (k, g') :: t' ∧ (∀ x, g' x ≠ none → g x ≠ none) ∧ Grows s t' := by
  cases h with
  | @cons _ f _ t' hf hs =>
    obtain ⟨k', g'⟩ := f
    obtain ⟨rfl, hf⟩ := hf
    refine ⟨g', t', rfl, fun x hx => ?_, hs⟩
    have hfx : g' x = g x ∨ (g x = some false ∧ g' x = some true) := hf x
    grind

theorem Grows.settled {K : List ν} (h : Grows s t) (hs : Settled K s) : Settled K t :=
  fun x hx => h.vis_ne (hs x hx)

theorem grows_mark [DecidableEq ν] (K : List ν) (s : Stack κ ν) : Grows s (mark K s) := by
  induction s generalizing K with
  | nil => exact .nil
  | cons f s ih =>
    refine .cons ⟨rfl, fun x => ?_⟩ (ih _)
    show (if x ∈ K then (f.2 x).map fun _ => true else f.2 x) = f.2 x ∨ _
    rcases hf : f.2 x with - | (- | -) <;> by_cases hK : x ∈ K <;> simp [hf, hK]

/-! ### Programs -/

/-- The ways to leave a program before its end. -/
inductive Exit where
  /-- to the next alternative -/
  | next
  | raise | brk | cont | ret
deriving DecidableEq

mutual

/-- Code that declares nothing in the scope it stands in. -/
inductive Prog (ν : Type u) : Type u where
  | skip
  | read (x : ν)
  /-- A read that the checker does not look at. -/
  | peek (x : ν)
  | assign (x : ν)
  | leave (e : Exit)
  | mayLeave (e : Exit)
  | seq (p q : Prog ν)
  | scope (b : Body ν)
  /-- `q` runs when `p` gives up. The checker goes on from the state after `q`. -/
  | orElse (p q : Prog ν)
  /-- `c`, and then either the end or `p` and all over again. -/
  | loop (c p : Prog ν)
  /-- `q` runs when `p` raises. -/
  | attempt (p q : Prog ν)
  /-- `p` runs after `q`, or not at all. The checker takes it before `q`. -/
  | defer (p q : Prog ν)
  /-- Leaving `p` by `e` ends `p` only. -/
  | handle (e : Exit) (p : Prog ν)
  /-- The checker does not look at `p`. -/
  | unseen (p : Prog ν)

/-- The contents of a scope. -/
inductive Body (ν : Type u) : Type u where
  | nil
  | step (p : Prog ν) (rest : Body ν)
  | declare (x : ν) (init : Bool) (rest : Body ν)
  /-- A declaration that the checker does not look at. -/
  | bind (x : ν) (init : Bool) (rest : Body ν)
  /-- A name that the checker declares. The run may take it for something else. -/
  | guess (x : ν) (rest : Body ν)
  /-- A scope that the checker takes as part of the scope around it. -/
  | merged (inner rest : Body ν)

end

mutual

/-- The names that are read somewhere. -/
def Prog.reads : Prog ν → List ν
  | .skip | .assign _ | .leave _ | .mayLeave _ => []
  | .read x | .peek x => [x]
  | .seq p q | .orElse p q | .loop p q | .attempt p q | .defer p q => p.reads ++ q.reads
  | .scope b => b.reads
  | .handle _ p | .unseen p => p.reads

def Body.reads : Body ν → List ν
  | .nil => []
  | .step p b => p.reads ++ b.reads
  | .declare _ _ b | .bind _ _ b | .guess _ b => b.reads
  | .merged a b => a.reads ++ b.reads

end

mutual

/-- The names that are declared somewhere without a value. -/
def Prog.blanks : Prog ν → List ν
  | .skip | .assign _ | .leave _ | .mayLeave _ | .read _ | .peek _ => []
  | .seq p q | .orElse p q | .loop p q | .attempt p q | .defer p q => p.blanks ++ q.blanks
  | .scope b => b.blanks
  | .handle _ p | .unseen p => p.blanks

def Body.blanks : Body ν → List ν
  | .nil => []
  | .step p b => p.blanks ++ b.blanks
  | .declare x false b => x :: b.blanks
  | .declare _ true b | .bind _ _ b | .guess _ b => b.blanks
  | .merged a b => a.blanks ++ b.blanks

end

/-- `p` runs or it does not, and the checker takes it that it does. -/
def Prog.perhaps (p : Prog ν) : Prog ν := .handle .next (.seq (.mayLeave .next) p)

/-! ### The checker -/

section Checker

variable [DecidableEq ν]

/-- The names that the checker puts into the current scope. -/
def Body.declared : Body ν → List ν
  | .nil => []
  | .step _ b => b.declared
  | .declare x _ b | .guess x b => x :: b.declared
  | .bind _ _ b => b.declared
  | .merged a b => a.declared ++ b.declared

mutual

/-- The names that the path kept by the checker assigns. -/
def Prog.kept : Prog ν → List ν
  | .skip | .read _ | .peek _ | .leave _ | .mayLeave _ => []
  | .assign x => [x]
  | .seq p q | .loop p q | .attempt p q | .defer p q => p.kept ++ q.kept
  | .scope b => b.kept
  | .orElse _ q => q.kept
  | .handle _ p => p.kept
  | .unseen _ => []

def Body.kept : Body ν → List ν
  | .nil => []
  | .step p b => p.kept ++ b.kept
  | .declare x _ b | .guess x b => b.kept.filter (· ≠ x)
  | .bind _ _ b => b.kept
  | .merged a b => a.kept ++ b.kept.filter (· ∉ a.declared)

end

/-- The state of the checker after the contents of a scope. -/
def Body.after : Body ν → Stack κ ν → Stack κ ν
  | .nil, v => v
  | .step p b, v => b.after (mark p.kept v)
  | .declare x init b, v => b.after (DefiniteAssignment.declare x init v)
  | .bind _ _ b, v => b.after v
  | .guess x b, v => b.after (DefiniteAssignment.declare x true v)
  | .merged a b, v => b.after (a.after v)

mutual

/-- The checker finds nothing. -/
def Prog.clean : Prog ν → Stack Unit ν → Prop
  | .skip, _ | .peek _, _ | .assign _, _ | .leave _, _ | .mayLeave _, _ | .unseen _, _ => True
  | .read x, v => vis v x ≠ some false
  | .seq p q, v | .loop p q, v | .attempt p q, v | .defer p q, v =>
    p.clean v ∧ q.clean (mark p.kept v)
  | .scope b, v => b.clean (((), Layer.empty) :: v)
  | .orElse p q, v => p.clean v ∧ q.clean v
  | .handle _ p, v => p.clean v

def Body.clean : Body ν → Stack Unit ν → Prop
  | .nil, _ => True
  | .step p b, v => p.clean v ∧ b.clean (mark p.kept v)
  | .declare x init b, v => b.clean (DefiniteAssignment.declare x init v)
  | .bind _ _ b, v => b.clean v
  | .guess x b, v => b.clean (DefiniteAssignment.declare x true v)
  | .merged a b, v => a.clean v ∧ b.clean (a.after v)

end

end Checker

/-! ### Executions -/

/-- A scope of a run, and whether the checker has a scope for it. -/
inductive Kind where
  | plain | merged
deriving DecidableEq

/-- How a run of a program ends. A fault is a read of an unassigned local. -/
inductive Outcome where
  | done
  | exit (e : Exit)
  | fault
deriving DecidableEq

/-- All executions, or those that are settled wherever the checker relies on it. -/
inductive Mode where
  | any | settled

def Mode.Requires (g : Mode) (P : Prop) : Prop := g = .settled → P

abbrev Run (ν : Type*) := Stack Kind ν → Outcome → Stack Kind ν → Prop

/-- A new entry for `x` hides no unassigned local of an outer scope. -/
def Unshadowing (x : ν) : Stack Kind ν → Prop
  | [] => True
  | (_, h) :: s => h x ≠ none ∨ vis s x ≠ some false

def headMerged : Stack Kind ν → Prop
  | (.merged, _) :: _ => True
  | _ => False

namespace Run

/-- Nothing happens, or something is raised. -/
def still : Run ν := fun m o m' => (o = .done ∨ o = .exit .raise) ∧ m' = m

def reads (x : ν) : Run ν := fun m o m' =>
  (vis m x ≠ some false ∧ still m o m') ∨ (vis m x = some false ∧ o = .fault ∧ m' = m)

def andThen (P Q : Run ν) : Run ν := fun m o m' =>
  (∃ a, P m .done a ∧ Q a o m') ∨ (o ≠ .done ∧ P m o m')

/-- Whatever comes of `P` but the exit `e`, and after that exit what `Q` does. -/
def catching (e : Exit) (P Q : Run ν) : Run ν := fun m o m' =>
  (∃ a, P m (.exit e) a ∧ Q a o m') ∨ (o ≠ .exit e ∧ P m o m')

/-- The end of a construct, where something is required. -/
def ends (R : Stack Kind ν → Prop) : Run ν := fun m o m' => o = .done ∧ m' = m ∧ R m

/-- One turn of a loop that goes on. -/
def turn (C P : Run ν) (m m' : Stack Kind ν) : Prop :=
  ∃ a o, C m .done a ∧ P a o m' ∧ (o = .done ∨ o = .exit .cont)

/-- The last turn of a loop. -/
def lastTurn (R : Stack Kind ν → Prop) (C P : Run ν) : Run ν :=
  C.andThen fun a o m' => ends R a o m' ∨ (∃ b, P a (.exit .brk) b ∧ ends R b o m') ∨
    (o ≠ .done ∧ o ≠ .exit .cont ∧ o ≠ .exit .brk ∧ P a o m')

def loop (R : Stack Kind ν → Prop) (C P : Run ν) : Run ν := fun m o m' =>
  ∃ a, Relation.ReflTransGen (turn C P) m a ∧ lastTurn R C P a o m'

/-- Inside a new scope. -/
def inside (k : Kind) (P : Run ν) : Run ν := fun m o m' =>
  ∃ a, P ((k, Layer.empty) :: m) o a ∧ m' = a.tail

end Run

section Executions

variable [DecidableEq ν]

mutual

def Prog.runs (g : Mode) : Prog ν → Run ν
  | .skip => Run.still
  | .read x => Run.reads x
  | .peek x => fun m o m' => g.Requires (vis m x ≠ some false) ∧ Run.reads x m o m'
  | .assign x => fun m o m' => (o = .done ∧ m' = mark [x] m) ∨ (o = .exit .raise ∧ m' = m)
  | .leave e => fun m o m' => (o = .exit e ∨ o = .exit .raise) ∧ m' = m
  | .mayLeave e => fun m o m' => (o = .done ∨ o = .exit e ∨ o = .exit .raise) ∧ m' = m
  | .seq p q => (p.runs g).andThen (q.runs g)
  | .scope b => (b.runs g).inside .plain
  | .orElse p q =>
    Run.catching .next
      ((p.runs g).andThen (Run.ends fun m => g.Requires (Settled q.kept m))) (q.runs g)
  | .loop c p => Run.loop (fun m => g.Requires (Settled p.kept m)) (c.runs g) (p.runs g)
  | .attempt p q =>
    Run.catching .raise
      ((p.runs g).andThen (Run.ends fun m => g.Requires (Settled q.kept m)))
      ((Run.ends fun m => g.Requires (Settled p.kept m)).andThen (q.runs g))
  | .defer p q => fun m o m' => g.Requires (Settled p.kept m) ∧
    (q.runs g).andThen (fun a o m' => Run.still a o m' ∨ p.runs g a o m') m o m'
  | .handle e p => Run.catching e (p.runs g) (Run.ends fun m => g.Requires (Settled p.kept m))
  | .unseen p => fun m o m' =>
    g.Requires (Settled p.reads m ∧ p.blanks = []) ∧ p.runs g m o m'

def Body.runs (g : Mode) : Body ν → Run ν
  | .nil => fun m o m' => o = .done ∧ m' = m
  | .step p b => (p.runs g).andThen (b.runs g)
  | .declare x init b => fun m o m' =>
    (headMerged m → g.Requires (Unshadowing x m)) ∧
      b.runs g (DefiniteAssignment.declare x init m) o m'
  | .bind x init b => fun m o m' =>
    g.Requires (init = true ∧ Unshadowing x m) ∧
      b.runs g (DefiniteAssignment.declare x init m) o m'
  | .guess x b => fun m o m' =>
    ((headMerged m → g.Requires (Unshadowing x m)) ∧
      b.runs g (DefiniteAssignment.declare x true m) o m') ∨
    (g.Requires (vis m x ≠ some false) ∧ b.runs g m o m')
  | .merged a b => ((a.runs g).inside .merged).andThen (b.runs g)

end

end Executions

/-! ### Runs only assign -/

/-- A run that only assigns. -/
def Run.Growing (P : Run ν) : Prop := ∀ ⦃m o m'⦄, P m o m' → Grows m m'

/-- A run that only assigns outside the current scope. -/
def Run.GrowingBelow (P : Run ν) : Prop :=
  ∀ ⦃k g s o m'⦄, P ((k, g) :: s) o m' → ∃ g' s', m' = (k, g') :: s' ∧ Grows s s'

namespace Run

variable {P Q : Run ν} {R : Stack Kind ν → Prop}

theorem Growing.below (hP : P.Growing) : P.GrowingBelow := by
  intro k g s o m' h
  obtain ⟨g', s', rfl, -, hs⟩ := (hP h).cons_inv
  exact ⟨g', s', rfl, hs⟩

theorem still_growing : (still : Run ν).Growing := by
  rintro m o _ ⟨-, rfl⟩
  exact Grows.refl _

theorem reads_growing (x : ν) : (reads x).Growing := by
  rintro m o m' (⟨-, h⟩ | ⟨-, -, rfl⟩)
  · exact still_growing h
  · exact Grows.refl _

theorem ends_growing : (ends R).Growing := by
  rintro m o _ ⟨-, rfl, -⟩
  exact Grows.refl _

theorem Growing.andThen (hP : P.Growing) (hQ : Q.Growing) : (P.andThen Q).Growing := by
  rintro m o m' (⟨a, h₁, h₂⟩ | ⟨-, h⟩)
  · exact (hP h₁).trans (hQ h₂)
  · exact hP h

theorem GrowingBelow.andThen (hP : P.GrowingBelow) (hQ : Q.GrowingBelow) :
    (P.andThen Q).GrowingBelow := by
  rintro k g s o m' (⟨a, h₁, h₂⟩ | ⟨-, h⟩)
  · obtain ⟨f₁, s₁, rfl, hs₁⟩ := hP h₁
    obtain ⟨f₂, s₂, rfl, hs₂⟩ := hQ h₂
    exact ⟨f₂, s₂, rfl, hs₁.trans hs₂⟩
  · exact hP h

theorem Growing.catching {e : Exit} (hP : P.Growing) (hQ : Q.Growing) :
    (catching e P Q).Growing := by
  rintro m o m' (⟨a, h₁, h₂⟩ | ⟨-, h⟩)
  · exact (hP h₁).trans (hQ h₂)
  · exact hP h

theorem turn_grows (hP : P.Growing) (hQ : Q.Growing) {m m' : Stack Kind ν}
    (h : Relation.ReflTransGen (turn P Q) m m') : Grows m m' := by
  induction h with
  | refl => exact Grows.refl _
  | tail _ h ih =>
    obtain ⟨a, o, h₁, h₂, -⟩ := h
    exact ih.trans ((hP h₁).trans (hQ h₂))

theorem Growing.lastTurn (hP : P.Growing) (hQ : Q.Growing) : (lastTurn R P Q).Growing := by
  refine hP.andThen ?_
  rintro m o m' (h | ⟨b, h₁, h₂⟩ | ⟨-, -, -, h⟩)
  · exact ends_growing h
  · exact (hQ h₁).trans (ends_growing h₂)
  · exact hQ h

theorem Growing.loop (hP : P.Growing) (hQ : Q.Growing) : (loop R P Q).Growing := by
  rintro m o m' ⟨a, h₁, h₂⟩
  exact (turn_grows hP hQ h₁).trans (hP.lastTurn hQ h₂)

theorem GrowingBelow.inside {k : Kind} (hP : P.GrowingBelow) : (inside k P).Growing := by
  rintro m o m' ⟨a, h, rfl⟩
  obtain ⟨f, s, rfl, hs⟩ := hP h
  exact hs

end Run

section

variable [DecidableEq ν]

mutual

theorem Prog.runs_growing (g : Mode) : (p : Prog ν) → (p.runs g).Growing
  | .skip => Run.still_growing
  | .read x => Run.reads_growing x
  | .peek x => fun _ _ _ h => Run.reads_growing x h.2
  | .assign x => by
    rintro m o m' (⟨-, rfl⟩ | ⟨-, rfl⟩)
    · exact grows_mark [x] m
    · exact Grows.refl _
  | .leave _ | .mayLeave _ => by
    rintro m o _ ⟨-, rfl⟩
    exact Grows.refl _
  | .seq p q => (p.runs_growing g).andThen (q.runs_growing g)
  | .scope b => (b.runs_growingBelow g).inside
  | .orElse p q => ((p.runs_growing g).andThen Run.ends_growing).catching (q.runs_growing g)
  | .loop c p => (c.runs_growing g).loop (p.runs_growing g)
  | .attempt p q =>
    ((p.runs_growing g).andThen Run.ends_growing).catching
      (Run.ends_growing.andThen (q.runs_growing g))
  | .defer p q => by
    rintro m o m' ⟨-, h⟩
    refine (q.runs_growing g).andThen ?_ h
    rintro a o m' (h | h)
    · exact Run.still_growing h
    · exact p.runs_growing g h
  | .handle _ p => (p.runs_growing g).catching Run.ends_growing
  | .unseen p => fun _ _ _ h => p.runs_growing g h.2

theorem Body.runs_growingBelow (g : Mode) : (b : Body ν) → (b.runs g).GrowingBelow
  | .nil => by
    rintro k g s o _ ⟨-, rfl⟩
    exact ⟨g, s, rfl, Grows.refl s⟩
  | .step p b => (p.runs_growing g).below.andThen (b.runs_growingBelow g)
  | .declare _ _ b | .bind _ _ b => fun _ _ _ _ _ h => b.runs_growingBelow g h.2
  | .guess _ b => fun _ _ _ _ _ h =>
    h.elim (fun h => b.runs_growingBelow g h.2) fun h => b.runs_growingBelow g h.2
  | .merged a b => (a.runs_growingBelow g).inside.below.andThen (b.runs_growingBelow g)

end

end

end DefiniteAssignment
