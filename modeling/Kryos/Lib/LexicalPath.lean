import Mathlib.Algebra.Order.Group.Nat
import Mathlib.Data.List.Infix

/-!
# Paths as texts

A path is a text of names between separators. Resolving a path takes its names one after another on
a stack: one name stays where it is, one goes up to the parent, and every other name goes down.

## Main results

* `LexicalPath.split_join`, `LexicalPath.split_append_sep` — the names of a text
* `LexicalPath.join_prefix_iff` — a text that begins with another one, up to a separator
* `LexicalPath.resolved_resolve` — what is left after resolution
* `LexicalPath.resolve_way_iff` — when the way from one path to another leads there
-/

namespace LexicalPath

/-! ## Names and separators -/

section Separators

variable {α : Type*}

def join (sep : α) : List (List α) → List α
  | [] => []
  | [s] => s
  | s :: names => s ++ sep :: join sep names

/-- Each name with a separator behind it. -/
def terminated (sep : α) (names : List (List α)) : List α := names.flatMap (· ++ [sep])

def IsName (sep : α) (s : List α) : Prop := s ≠ [] ∧ sep ∉ s

variable {sep : α} {s s' p q : List α} {names names' : List (List α)}

theorem join_cons (s : List α) (h : names ≠ []) :
    join sep (s :: names) = s ++ sep :: join sep names := by
  cases names with
  | nil => exact absurd rfl h
  | cons s' names => rfl

theorem mem_join {c : α} (h : c ∈ join sep names) : c = sep ∨ ∃ s ∈ names, c ∈ s := by
  induction names with
  | nil => cases h
  | cons s names ih =>
    by_cases hnil : names = []
    · rw [hnil] at h
      exact .inr ⟨s, List.mem_cons_self, h⟩
    · rw [join_cons s hnil] at h
      obtain h | h := List.mem_append.mp h
      · exact .inr ⟨s, List.mem_cons_self, h⟩
      · obtain rfl | h := List.mem_cons.mp h
        · exact .inl rfl
        · obtain hc | ⟨s', hs', hc⟩ := ih h
          · exact .inl hc
          · exact .inr ⟨s', List.mem_cons_of_mem s hs', hc⟩

/-! ### Prefixes -/

theorem append_sep_prefix_iff (hs : sep ∉ s) (hs' : sep ∉ s') :
    s ++ sep :: p <+: s' ++ sep :: q ↔ s = s' ∧ p <+: q := by
  induction s generalizing s' with
  | nil =>
    cases s' with
    | nil => simp
    | cons c s' =>
      have hc : sep ≠ c := fun heq => hs' (heq ▸ List.mem_cons_self)
      simp [List.cons_prefix_cons, hc]
  | cons c s ih =>
    obtain ⟨hc, hs⟩ := not_or.mp (mt List.mem_cons.mpr hs)
    cases s' with
    | nil => simp [List.cons_prefix_cons, Ne.symm hc]
    | cons c' s' =>
      have hs' := (not_or.mp (mt List.mem_cons.mpr hs')).2
      rw [List.cons_append, List.cons_append, List.cons_prefix_cons, ih hs hs', List.cons.injEq,
        and_assoc]

theorem join_append_sep (h : names ≠ []) : join sep names ++ [sep] = terminated sep names := by
  induction names with
  | nil => exact absurd rfl h
  | cons s names ih =>
    rw [terminated, List.flatMap_cons]
    by_cases hnil : names = []
    · rw [hnil]
      simp [join]
    · rw [join_cons s hnil, List.append_assoc, List.cons_append, ih hnil, List.append_assoc]
      rfl

theorem head_terminated (h : ∀ s ∈ names, IsName sep s) (hne : names ≠ []) :
    ∃ c rest, terminated sep names = c :: rest ∧ c ≠ sep := by
  cases names with
  | nil => exact absurd rfl hne
  | cons s names =>
    obtain ⟨hs, hsep⟩ := h s List.mem_cons_self
    cases s with
    | nil => exact absurd rfl hs
    | cons c s => exact ⟨c, _, rfl, fun heq => hsep (heq ▸ List.mem_cons_self)⟩

/-- Names are a prefix as texts if they are one as lists, also before another separator. -/
theorem terminated_prefix_iff (h : ∀ s ∈ names, IsName sep s) (h' : ∀ s ∈ names', IsName sep s)
    (k : ℕ) : terminated sep names <+: terminated sep names' ++ List.replicate k sep ↔
      names <+: names' := by
  induction names generalizing names' with
  | nil => simp [terminated]
  | cons s names ih =>
    cases names' with
    | nil =>
      obtain ⟨c, rest, heq, hc⟩ := head_terminated h (List.cons_ne_nil s names)
      rw [heq]
      cases k with
      | zero => simp [terminated]
      | succ k => simp [terminated, List.replicate_succ, List.cons_prefix_cons, hc]
    | cons s' names' =>
      rw [List.forall_mem_cons] at h h'
      rw [terminated, terminated, List.flatMap_cons, List.flatMap_cons, List.append_assoc,
        List.append_assoc, List.append_assoc, List.singleton_append, List.singleton_append,
        append_sep_prefix_iff h.1.2 h'.1.2, List.cons_prefix_cons]
      exact and_congr_right fun _ => ih h.2 h'.2

/-- The same with separators before the names. -/
theorem lead_terminated_prefix_iff (h : ∀ s ∈ names, IsName sep s)
    (h' : ∀ s ∈ names', IsName sep s) (hne : names ≠ []) (l l' : ℕ) {k : ℕ} (hk : k ≤ 1) :
    List.replicate l sep ++ terminated sep names <+:
        List.replicate l' sep ++ terminated sep names' ++ List.replicate k sep ↔
      l = l' ∧ names <+: names' := by
  obtain ⟨c, rest, heq, hc⟩ := head_terminated h hne
  induction l generalizing l' with
  | zero =>
    cases l' with
    | zero => simpa using terminated_prefix_iff h h' k
    | succ l' => simp [heq, List.replicate_succ, List.cons_prefix_cons, hc]
  | succ l ih =>
    cases l' with
    | succ l' => simpa [List.replicate_succ, List.cons_prefix_cons] using ih l'
    | zero =>
      refine iff_of_false ?_ (by simp)
      intro hstart
      rw [List.replicate_succ, List.cons_append, List.replicate_zero, List.nil_append] at hstart
      by_cases hnil : names' = []
      · have hlen := hstart.length_le
        rw [hnil, heq] at hlen
        simp [terminated] at hlen
        omega
      · obtain ⟨c', rest', heq', hc'⟩ := head_terminated h' hnil
        rw [heq', List.cons_append, List.cons_prefix_cons] at hstart
        exact hc' hstart.1.symm

/-! ### Splitting -/

variable [DecidableEq α]

/-- The names that are left to read. `cur` is what stands behind the last separator. -/
def splitFrom (sep : α) (cur : List α) : List α → List (List α)
  | [] => if cur = [] then [] else [cur]
  | c :: p =>
    if c = sep then
      if cur = [] then splitFrom sep [] p else cur :: splitFrom sep [] p
    else splitFrom sep (cur ++ [c]) p

/-- The names of a path: what stands between separators, unless it is empty. -/
def split (sep : α) (p : List α) : List (List α) := splitFrom sep [] p

theorem splitFrom_append (cur : List α) (hs : sep ∉ s) (p : List α) :
    splitFrom sep cur (s ++ p) = splitFrom sep (cur ++ s) p := by
  induction s generalizing cur with
  | nil => rw [List.nil_append, List.append_nil]
  | cons c s ih =>
    obtain ⟨hc, hs⟩ := not_or.mp (mt List.mem_cons.mpr hs)
    rw [List.cons_append, splitFrom, if_neg (Ne.symm hc), ih _ hs, List.append_assoc,
      List.singleton_append]

theorem split_nil : split sep [] = [] := rfl

theorem split_sep_cons (p : List α) : split sep (sep :: p) = split sep p := by
  rw [split, splitFrom, if_pos rfl, if_pos rfl, split]

theorem split_name (hs : IsName sep s) : split sep s = [s] := by
  have h := splitFrom_append [] hs.2 []
  rw [List.append_nil, List.nil_append] at h
  rw [split, h, splitFrom, if_neg hs.1]

theorem split_name_sep (hs : IsName sep s) (p : List α) :
    split sep (s ++ sep :: p) = s :: split sep p := by
  rw [split, splitFrom_append [] hs.2, List.nil_append, splitFrom, if_pos rfl, if_neg hs.1, split]

theorem splitFrom_append_sep (cur p q : List α) :
    splitFrom sep cur (p ++ sep :: q) = splitFrom sep cur p ++ split sep q := by
  induction p generalizing cur with
  | nil =>
    rw [List.nil_append, splitFrom, splitFrom, if_pos rfl]
    split_ifs <;> rfl
  | cons c p ih =>
    rw [List.cons_append, splitFrom, splitFrom]
    split_ifs <;> simp only [ih, List.cons_append]

theorem split_append_sep (p q : List α) :
    split sep (p ++ sep :: q) = split sep p ++ split sep q :=
  splitFrom_append_sep [] p q

theorem split_join (h : ∀ s ∈ names, IsName sep s) : split sep (join sep names) = names := by
  induction names with
  | nil => rfl
  | cons s names ih =>
    rw [List.forall_mem_cons] at h
    by_cases hnil : names = []
    · rw [hnil]
      exact split_name h.1
    · rw [join_cons s hnil, split_name_sep h.1, ih h.2]

theorem isName_of_mem_splitFrom {cur : List α} (hcur : sep ∉ cur)
    (h : s ∈ splitFrom sep cur p) : IsName sep s := by
  induction p generalizing cur with
  | nil =>
    rw [splitFrom] at h
    split_ifs at h with hnil
    · cases h
    · rw [List.mem_singleton.mp h]
      exact ⟨hnil, hcur⟩
  | cons c p ih =>
    rw [splitFrom] at h
    split_ifs at h with hc hnil
    · exact ih List.not_mem_nil h
    · obtain rfl | h := List.mem_cons.mp h
      · exact ⟨hnil, hcur⟩
      · exact ih List.not_mem_nil h
    · refine ih (fun hmem => ?_) h
      obtain hmem | hmem := List.mem_append.mp hmem
      · exact hcur hmem
      · exact hc (List.mem_singleton.mp hmem).symm

theorem isName_of_mem_split (h : s ∈ split sep p) : IsName sep s :=
  isName_of_mem_splitFrom List.not_mem_nil h

/-- A path that does not begin with a separator begins with its first name. -/
theorem split_eq_cons (hne : p ≠ []) (hp : p.head? ≠ some sep) :
    ∃ s, IsName sep s ∧
      ((p = s ∧ split sep p = [s]) ∨ ∃ q, p = s ++ sep :: q ∧ split sep p = s :: split sep q) := by
  by_cases hmem : sep ∈ p
  · obtain ⟨s, q, rfl, hs⟩ := List.eq_append_cons_of_mem hmem
    have hname : IsName sep s := by
      refine ⟨?_, hs⟩
      rintro rfl
      exact hp rfl
    exact ⟨s, hname, .inr ⟨q, rfl, split_name_sep hname q⟩⟩
  · exact ⟨p, ⟨hne, hmem⟩, .inl ⟨rfl, split_name ⟨hne, hmem⟩⟩⟩

/-- The letters of a name are letters of the path. -/
theorem mem_of_mem_splitFrom {cur : List α} (h : s ∈ splitFrom sep cur p) {c : α} (hc : c ∈ s) :
    c ∈ cur ∨ c ∈ p := by
  induction p generalizing cur with
  | nil =>
    rw [splitFrom] at h
    split_ifs at h
    · cases h
    · rw [List.mem_singleton.mp h] at hc
      exact .inl hc
  | cons d p ih =>
    rw [splitFrom] at h
    split_ifs at h
    · obtain hnil | hp := ih h
      · cases hnil
      · exact .inr (List.mem_cons_of_mem d hp)
    · obtain rfl | h := List.mem_cons.mp h
      · exact .inl hc
      · obtain hnil | hp := ih h
        · cases hnil
        · exact .inr (List.mem_cons_of_mem d hp)
    · obtain hcur | hp := ih h
      · obtain hcur | hd := List.mem_append.mp hcur
        · exact .inl hcur
        · exact .inr (List.mem_singleton.mp hd ▸ List.mem_cons_self)
      · exact .inr (List.mem_cons_of_mem d hp)

theorem mem_of_mem_split (h : s ∈ split sep p) {c : α} (hc : c ∈ s) : c ∈ p :=
  (mem_of_mem_splitFrom h hc).resolve_left List.not_mem_nil

end Separators

/-! ## Resolution -/

section Resolution

variable {α : Type*}

/-- Names that only go down. -/
def Plain (dot up : α) (names : List α) : Prop := ∀ s ∈ names, s ≠ dot ∧ s ≠ up

/-- Some steps up and then down, or only down from a root. -/
def Resolved (dot up : α) (rooted : Bool) (names : List α) : Prop :=
  ∃ k t, names = List.replicate k up ++ t ∧ Plain dot up t ∧ (rooted = true → k = 0)

section

variable {dot up : α} {rooted : Bool}

theorem Plain.append {t u : List α} (ht : Plain dot up t) (hu : Plain dot up u) :
    Plain dot up (t ++ u) := by
  intro s hs
  obtain hs | hs := List.mem_append.mp hs
  · exact ht s hs
  · exact hu s hs

theorem resolved_nil : Resolved dot up rooted [] := ⟨0, [], rfl, nofun, fun _ => rfl⟩

end

variable [DecidableEq α]

/-- What one name does to the stack, whose top is at its end. Nothing is above a root. -/
def step (dot up : α) (rooted : Bool) (stack : List α) (name : α) : List α :=
  if name = dot then stack
  else if name = up then
    if stack ≠ [] ∧ stack.getLast? ≠ some up then stack.dropLast
    else if rooted then stack else stack ++ [up]
  else stack ++ [name]

def resolve (dot up : α) (rooted : Bool) (stack names : List α) : List α :=
  names.foldl (step dot up rooted) stack

def commonLength : List α → List α → ℕ
  | x :: xs, y :: ys => if x = y then commonLength xs ys + 1 else 0
  | _, _ => 0

/-- Up to what two paths have in common, and down from there. -/
def way (up : α) (start goal : List α) : List α :=
  List.replicate (start.length - commonLength start goal) up ++
    goal.drop (commonLength start goal)

variable {dot up : α} {rooted : Bool} {stack names t : List α} {x : α}

/-- Resolution only adds steps up. -/
theorem mem_resolve {s : α} (h : s ∈ resolve dot up rooted stack names) :
    s ∈ stack ∨ s ∈ names ∨ s = up := by
  induction names generalizing stack with
  | nil => exact .inl h
  | cons name names ih =>
    obtain hstack | hnames | hup := ih h
    · rw [step] at hstack
      split_ifs at hstack
      · exact .inl hstack
      · exact .inl (List.mem_of_mem_dropLast hstack)
      · exact .inl hstack
      · obtain hstack | hs := List.mem_append.mp hstack
        · exact .inl hstack
        · exact .inr (.inr (List.mem_singleton.mp hs))
      · obtain hstack | hs := List.mem_append.mp hstack
        · exact .inl hstack
        · exact .inr (.inl (List.mem_singleton.mp hs ▸ List.mem_cons_self))
    · exact .inr (.inl (List.mem_cons_of_mem name hnames))
    · exact .inr (.inr hup)

theorem resolve_append (stack names more : List α) :
    resolve dot up rooted stack (names ++ more) =
      resolve dot up rooted (resolve dot up rooted stack names) more :=
  List.foldl_append

theorem resolve_plain (h : Plain dot up t) (stack : List α) :
    resolve dot up rooted stack t = stack ++ t := by
  induction t generalizing stack with
  | nil => exact (List.append_nil _).symm
  | cons s t ih =>
    obtain ⟨⟨hdot, hup⟩, ht⟩ := List.forall_mem_cons.mp h
    rw [resolve, List.foldl_cons, step, if_neg hdot, if_neg hup]
    exact (ih ht _).trans (by rw [List.append_assoc, List.singleton_append])

section

variable (hdot : dot ≠ up)

include hdot

theorem step_up_concat (hx : x ≠ up) (stack : List α) :
    step dot up rooted (stack ++ [x]) up = stack := by
  rw [step, if_neg hdot.symm, if_pos rfl, if_pos, List.dropLast_concat]
  refine ⟨by simp, ?_⟩
  rw [List.getLast?_append, List.getLast?_singleton]
  simpa using hx

/-- As many steps up as there are names to go down. -/
theorem resolve_climb (ht : Plain dot up t) (stack : List α) :
    resolve dot up rooted (stack ++ t) (List.replicate t.length up) = stack := by
  induction t using List.reverseRecOn with
  | nil => exact List.append_nil _
  | append_singleton t x ih =>
    have hx : x ≠ up := (ht x (List.mem_append_right _ (List.mem_singleton.mpr rfl))).2
    rw [List.length_append, List.length_singleton, List.replicate_succ, resolve, List.foldl_cons,
      ← List.append_assoc, step_up_concat hdot hx]
    exact ih fun s hs => ht s (List.mem_append_left _ hs)

theorem step_up_ups (k : ℕ) :
    step dot up false (List.replicate k up) up = List.replicate (k + 1) up := by
  have hnot : ¬(List.replicate k up ≠ [] ∧ (List.replicate k up).getLast? ≠ some up) := by
    cases k with
    | zero => simp
    | succ k => simp [List.getLast?_replicate]
  rw [step, if_neg hdot.symm, if_pos rfl, if_neg hnot, List.replicate_succ']
  rfl

theorem resolve_ups (k j : ℕ) :
    resolve dot up false (List.replicate k up) (List.replicate j up) =
      List.replicate (k + j) up := by
  induction j generalizing k with
  | zero => rfl
  | succ j ih =>
    rw [List.replicate_succ, resolve, List.foldl_cons, step_up_ups hdot]
    exact (ih (k + 1)).trans (by rw [Nat.add_right_comm, Nat.add_assoc])

theorem resolved_step (h : Resolved dot up rooted stack) (name : α) :
    Resolved dot up rooted (step dot up rooted stack name) := by
  obtain ⟨k, t, rfl, ht, hk⟩ := h
  by_cases hname : name = dot
  · rw [step, if_pos hname]
    exact ⟨k, t, rfl, ht, hk⟩
  by_cases hup : name = up
  · subst hup
    obtain rfl | ⟨t', x, rfl⟩ := t.eq_nil_or_concat
    · rw [List.append_nil]
      cases rooted with
      | false =>
        rw [step_up_ups hdot]
        exact ⟨k + 1, [], (List.append_nil _).symm, nofun, nofun⟩
      | true =>
        rw [hk rfl]
        refine ⟨0, [], ?_, nofun, fun _ => rfl⟩
        rw [step, if_neg hname, if_pos rfl]
        rfl
    · have hx := ht x (by simp)
      rw [List.concat_eq_append, ← List.append_assoc, step_up_concat hdot hx.2]
      exact ⟨k, t', rfl, fun s hs => ht s (by simp [hs]), hk⟩
  · rw [step, if_neg hname, if_neg hup, List.append_assoc]
    refine ⟨k, t ++ [name], rfl, ht.append fun s hs => ?_, hk⟩
    rw [List.mem_singleton.mp hs]
    exact ⟨hname, hup⟩

theorem resolved_resolve_of_resolved (h : Resolved dot up rooted stack) (names : List α) :
    Resolved dot up rooted (resolve dot up rooted stack names) := by
  induction names generalizing stack with
  | nil => exact h
  | cons name names ih => exact ih (resolved_step hdot h name)

theorem resolved_resolve (names : List α) :
    Resolved dot up rooted (resolve dot up rooted [] names) :=
  resolved_resolve_of_resolved hdot resolved_nil names

/-- What is resolved stays as it is. -/
theorem resolve_resolved (h : Resolved dot up rooted names) :
    resolve dot up rooted [] names = names := by
  obtain ⟨k, t, rfl, ht, hk⟩ := h
  rw [resolve_append]
  cases rooted with
  | true =>
    rw [hk rfl]
    exact resolve_plain ht []
  | false =>
    have hups := resolve_ups hdot 0 k
    rw [List.replicate_zero, Nat.zero_add] at hups
    rw [hups, resolve_plain ht]

end

/-! ### The way from one path to another -/

theorem commonLength_append (xs ys zs : List α) :
    commonLength (xs ++ ys) (xs ++ zs) = xs.length + commonLength ys zs := by
  induction xs with
  | nil => exact (Nat.zero_add _).symm
  | cons x xs ih =>
    rw [List.cons_append, List.cons_append, commonLength, if_pos rfl, ih, List.length_cons,
      Nat.add_right_comm]

theorem take_commonLength (xs ys : List α) :
    xs.take (commonLength xs ys) = ys.take (commonLength xs ys) := by
  induction xs generalizing ys with
  | nil => cases ys <;> rfl
  | cons x xs ih =>
    cases ys with
    | nil => rfl
    | cons y ys =>
      rw [commonLength]
      split_ifs with h
      · rw [List.take_succ_cons, List.take_succ_cons, ih, h]
      · rfl

theorem commonLength_le (xs ys : List α) : commonLength xs ys ≤ xs.length := by
  induction xs generalizing ys with
  | nil => cases ys <;> exact Nat.le_refl 0
  | cons x xs ih =>
    cases ys with
    | nil => exact Nat.zero_le _
    | cons y ys =>
      rw [commonLength]
      split_ifs
      · exact Nat.succ_le_succ (ih ys)
      · exact Nat.zero_le _

theorem way_append (xs ys zs : List α) : way up (xs ++ ys) (xs ++ zs) = way up ys zs := by
  rw [way, way, commonLength_append, List.length_append, Nat.add_sub_add_left,
    ← List.drop_drop, List.drop_left]

/-- The names that differ from the first on have nothing in common. -/
theorem way_of_head_ne {ys zs : List α} (h : ys.head? ≠ zs.head? ∨ ys = []) :
    way up ys zs = List.replicate ys.length up ++ zs := by
  have hzero : commonLength ys zs = 0 := by
    cases ys with
    | nil => cases zs <;> rfl
    | cons y ys =>
      cases zs with
      | nil => rfl
      | cons z zs =>
        rw [commonLength, if_neg]
        rintro rfl
        simp at h
  rw [way, hzero, Nat.sub_zero, List.drop_zero]

theorem resolve_way_plain (hdot : dot ≠ up) {ys zs : List α} (hys : Plain dot up ys)
    (hzs : Plain dot up zs) (stack : List α) :
    resolve dot up rooted (stack ++ ys) (way up ys zs) = stack ++ zs := by
  obtain ⟨c, hc⟩ : ∃ c, commonLength ys zs = c := ⟨_, rfl⟩
  have htake := take_commonLength ys zs
  have hle := commonLength_le ys zs
  rw [hc] at htake hle
  have hclimb : resolve dot up rooted (stack ++ ys.take c ++ ys.drop c)
      (List.replicate (ys.drop c).length up) = stack ++ ys.take c :=
    resolve_climb hdot (fun s hs => hys s (List.mem_of_mem_drop hs)) _
  rw [List.append_assoc, List.take_append_drop, List.length_drop] at hclimb
  rw [way, hc, resolve_append, hclimb, htake,
    resolve_plain fun s hs => hzs s (List.mem_of_mem_drop hs), List.append_assoc,
    List.take_append_drop]

/-- The way leads from one path to another unless it would have to go down again below the start. -/
theorem resolve_way_iff (hdot : dot ≠ up) {k j : ℕ} {t u : List α} (ht : Plain dot up t)
    (hu : Plain dot up u) (hroot : rooted = true → k = 0 ∧ j = 0) :
    resolve dot up rooted (List.replicate k up ++ t)
        (way up (List.replicate k up ++ t) (List.replicate j up ++ u)) =
      List.replicate j up ++ u ↔ k ≤ j := by
  obtain hlt | rfl | hlt := lt_trichotomy k j
  · obtain ⟨i, rfl⟩ := Nat.exists_eq_add_of_lt hlt
    obtain rfl : rooted = false := by
      by_contra hne
      obtain ⟨rfl, hj⟩ := hroot (Bool.eq_true_of_not_eq_false hne)
      omega
    have hway : way up t (List.replicate (i + 1) up ++ u) =
        List.replicate t.length up ++ (List.replicate (i + 1) up ++ u) := by
      refine way_of_head_ne ?_
      cases t with
      | nil => exact .inr rfl
      | cons s t => exact .inl (by simpa [List.replicate_succ] using (ht s List.mem_cons_self).2)
    refine iff_of_true ?_ hlt.le
    rw [Nat.add_assoc, List.replicate_add, List.append_assoc, way_append, hway, resolve_append,
      resolve_climb hdot ht, resolve_append, resolve_ups hdot, resolve_plain hu, List.replicate_add,
      List.append_assoc]
  · rw [way_append, resolve_way_plain hdot ht hu]
    exact iff_of_true rfl (Nat.le_refl _)
  · obtain ⟨i, rfl⟩ := Nat.exists_eq_add_of_lt hlt
    obtain rfl : rooted = false := by
      by_contra hne
      have hk := (hroot (Bool.eq_true_of_not_eq_false hne)).1
      omega
    have hway : way up (List.replicate (i + 1) up ++ t) u =
        List.replicate t.length up ++ (List.replicate (i + 1) up ++ u) := by
      rw [way_of_head_ne, List.length_append, List.length_replicate, Nat.add_comm,
        List.replicate_add, List.append_assoc]
      left
      cases u with
      | nil => simp [List.replicate_succ]
      | cons s u => simpa [List.replicate_succ] using (hu s List.mem_cons_self).2.symm
    refine iff_of_false (fun heq => ?_) (by omega)
    rw [Nat.add_assoc, List.replicate_add, List.append_assoc, way_append, hway, ← List.append_assoc,
      ← List.replicate_add, resolve_append, resolve_climb hdot ht, resolve_append,
      resolve_ups hdot, resolve_plain hu] at heq
    have hlen := congrArg List.length heq
    simp only [List.length_append, List.length_replicate] at hlen
    omega

end Resolution

end LexicalPath
