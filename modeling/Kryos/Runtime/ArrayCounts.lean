import Mathlib
import Kryos.Runtime.ArrayRc

/-!
# The counts of shared arrays are exact

The invariant of the counts, kept by every step that meets `Undisturbed`. Besides the exactness of
the counts it says where the handles of an array are: each is still in its slot, on its way into it,
in a release under way, or released. A thread that copies an array holds it meanwhile, so that its
elements cannot go away.
-/

namespace Kryos.Runtime.ArrayRc

variable {T : Type}

/-- A thread that copies `a` into `b` holds both, and what it has still to copy is in `a`. -/
def DupsHeld (s : State T) : Prop :=
  ∀ t a b kind todo seen, Task.dup a b kind todo seen ∈ s.tasks t →
    0 < s.refs t a ∧ 0 < s.refs t b ∧ ∀ e, some e ∈ todo → some e ∈ (s.cells a).slots

variable {s : State T}

/-- Threads in a call keep their references, and arrays that are held keep their elements. -/
theorem DupsHeld.mono {s' : State T} (h : DupsHeld s)
    (htasks : ∀ t a b kind todo seen, Task.dup a b kind todo seen ∈ s'.tasks t →
      ∃ todo' seen', Task.dup a b kind todo' seen' ∈ s.tasks t ∧ todo ⊆ todo')
    (hrefs : ∀ t x, s.tasks t ≠ [] → s.refs t x ≤ s'.refs t x)
    (hslots : ∀ t a e, 0 < s.refs t a → some e ∈ (s.cells a).slots → some e ∈ (s'.cells a).slots) :
    DupsHeld s' := by
  intro t a b kind todo seen hk
  obtain ⟨todo', seen', hk', hsub⟩ := htasks t a b kind todo seen hk
  obtain ⟨ha, hb, htodo⟩ := h t a b kind todo' seen' hk'
  have hne : s.tasks t ≠ [] := List.ne_nil_of_mem hk'
  exact ⟨ha.trans_le (hrefs t a hne), hb.trans_le (hrefs t b hne),
    fun e he => hslots t a e ha (htodo e (hsub he))⟩

variable {k : Task}

/-- What a release counts for. -/
theorem owns_eq {o : Handle} (hk : k.target = some o) (x : Handle) :
    k.owns x = if o = x then 1 else 0 := by
  simp only [Task.owns, hk, Option.some.injEq]

variable {src : Option Handle}

theorem releasing_eq {o : Handle} (hk : k.target = some o) (hsrc : k.src = src) (a e : Handle) :
    k.releasing a e = if o = e ∧ src = some a then 1 else 0 := by
  simp only [Task.releasing, hk, hsrc, Option.some.injEq]

theorem copying_eq_zero {o : Handle} (hk : k.target = some o) (a e : Handle) :
    k.copying a e = 0 := by
  cases k with
  | release _ _ _ | swap _ _ _ _ => rfl
  | dup _ _ _ _ _ => simp [Task.target] at hk

variable {rest : List Task}

/-- The dups of the tasks that follow a release, behind the releases of elements. -/
theorem dup_mem_of_append [DecidableEq T] {t : T} (ts : List Task) (hk : s.tasks t = k :: rest)
    (hts : ∀ a b kind todo seen, Task.dup a b kind todo seen ∉ ts) :
    ∀ t' a b kind todo seen,
      Task.dup a b kind todo seen ∈ (if t' = t then ts ++ rest else s.tasks t') →
      ∃ todo' seen', Task.dup a b kind todo' seen' ∈ s.tasks t' ∧ todo ⊆ todo' := by
  intro t' a b kind todo seen hmem
  refine ⟨todo, seen, ?_, List.Subset.refl _⟩
  split_ifs at hmem with ht
  · subst ht
    rw [hk]
    exact List.mem_cons_of_mem k ((List.mem_append.mp hmem).resolve_left (hts a b kind todo seen))
  · exact hmem

/-- What holds between any two undisturbed steps. -/
structure Inv [Fintype T] (s : State T) : Prop where
  count_eq : ∀ o, (s.cells o).count = s.held o
  dead : ∀ o, (s.cells o).freed = true → (s.cells o).count = 0 ∧ (s.cells o).slots = []
  unallocated : ∀ o, s.size ≤ o → s.cells o = ⟨0, [], [], false⟩
  /-- where the handles of `a` are -/
  handles : ∀ a e, s.released.count (a, e) + s.total (Task.releasing a e) +
    s.total (Task.copying a e) + (s.cells a).slots.count (some e) =
      (s.cells a).elems.count (some e)
  dups : DupsHeld s

variable {a : Handle}

namespace Inv

variable [Fintype T] {s : State T} {t : T} {o : Handle}

theorem lt_size (h : Inv s) (hpos : 0 < (s.cells o).count) : o < s.size := by
  by_contra hle
  rw [h.unallocated o (not_lt.mp hle)] at hpos
  exact lt_irrefl 0 hpos

theorem ref_pos (h : Inv s) (hr : 0 < s.refs t o) : 0 < (s.cells o).count := by
  have := State.refs_add_owns_le_held (s := s) t t o
  rw [h.count_eq]
  omega

theorem slot_pos (h : Inv s) {e : Handle} (he : some e ∈ (s.cells a).slots) :
    0 < (s.cells e).count := by
  have ha : a < s.size := by
    by_contra hle
    rw [h.unallocated a (not_lt.mp hle)] at he
    exact List.not_mem_nil he
  have hle := State.slots_le_held ha e
  have hcount : 0 < (s.cells a).slots.count (some e) := List.count_pos_iff.mpr he
  rw [h.count_eq]
  omega

theorem task_pos (h : Inv s) (hk : s.tasks t = k :: rest) (ho : k.target = some o) :
    0 < (s.cells o).count := by
  have hle := State.refs_add_owns_le_held (s := s) t t o
  rw [hk, List.map_cons, List.sum_cons, Task.owns, if_pos ho] at hle
  rw [h.count_eq]
  omega

/-- A thread that is about to release the last reference: no thread holds another one. -/
theorem refs_eq_zero (h : Inv s) (hk : s.tasks t = k :: rest) (ho : k.target = some o)
    (hlast : (s.cells o).count = 1) (t' : T) : s.refs t' o = 0 := by
  have hle := State.refs_add_owns_le_held (s := s) t' t o
  rw [hk, List.map_cons, List.sum_cons, Task.owns, if_pos ho] at hle
  have := h.count_eq o
  omega

end Inv

/-! ## Retaining and handing over -/

namespace Inv

variable [Fintype T] [DecidableEq T] {s : State T} {t : T} {o : Handle}

theorem retain (h : Inv s) (t : T) (hpos : 0 < (s.cells o).count) :
    Inv ((s.setCount o ((s.cells o).count + 1)).setRefs t o (s.refs t o + 1)) where
  count_eq x := by
    have hrefs := State.held_setRefs (s := s.setCount o ((s.cells o).count + 1)) t o
      (s.refs t o + 1) x
    have hx := h.count_eq x
    simp only [State.setRefs_cells, State.setCount_cells, State.held_setCount,
      State.setCount_refs] at hrefs ⊢
    split_ifs at hrefs ⊢ with hxo
    · subst hxo
      omega
    · omega
  dead x hx := by
    simp only [State.setRefs_cells, State.setCount_cells] at hx
    obtain ⟨hcount, hslots⟩ := h.dead x hx
    have hxo : x ≠ o := by
      rintro rfl
      omega
    simp [hxo, hcount, hslots]
  unallocated x hx := by
    have hxo : x ≠ o := fun e => absurd (h.lt_size hpos) (by subst e; exact not_lt.mpr hx)
    simpa [State.setCount, hxo] using h.unallocated x hx
  handles a e := by simpa using h.handles a e
  dups := by
    refine h.dups.mono (fun _ _ _ _ todo seen hk => ⟨todo, seen, hk, List.Subset.refl _⟩) ?_ (fun _ _ _ _ he => by simpa using he)
    intro t' x _
    simp only [State.setRefs_refs, State.setCount_refs]
    split_ifs with hx
    · rw [hx.1, hx.2]
      exact Nat.le_succ _
    · exact le_rfl

/-- The thread goes on with other tasks, which hold the same references. -/
theorem setTasks (h : Inv s) {ts : List Task}
    (howns : ∀ x, (ts.map (Task.owns x)).sum = ((s.tasks t).map (Task.owns x)).sum)
    (hrel : ∀ a e, (ts.map (Task.releasing a e)).sum = ((s.tasks t).map (Task.releasing a e)).sum)
    (hcopy : ∀ a e, (ts.map (Task.copying a e)).sum = ((s.tasks t).map (Task.copying a e)).sum)
    (hdup : ∀ a b kind todo seen, Task.dup a b kind todo seen ∈ ts →
      ∃ todo' seen', Task.dup a b kind todo' seen' ∈ s.tasks t ∧ todo ⊆ todo') :
    Inv (s.setTasks t ts) where
  count_eq x := by
    have hheld := State.held_setTasks (s := s) t ts x
    rw [howns] at hheld
    rw [State.setTasks_cells, h.count_eq]
    omega
  dead := h.dead
  unallocated := h.unallocated
  handles a e := by
    have hr := State.total_setTasks (s := s) t ts (Task.releasing a e)
    have hc := State.total_setTasks (s := s) t ts (Task.copying a e)
    have hae := h.handles a e
    rw [hrel] at hr
    rw [hcopy] at hc
    simp only [State.setTasks_cells, State.setTasks_released]
    omega
  dups := by
    refine h.dups.mono ?_ (fun _ _ _ => le_rfl) (fun _ _ _ _ he => he)
    intro t' a b kind todo seen hk
    simp only [State.setTasks_tasks] at hk
    split_ifs at hk with ht
    · subst ht
      exact hdup a b kind todo seen hk
    · exact ⟨todo, seen, hk, List.Subset.refl _⟩

/-- A release goes from one of its steps to the next. -/
theorem next (h : Inv s) {k' : Task} (hk : s.tasks t = k :: rest) (htarget : k'.target = some o)
    (hsame : k.target = some o) (hsrc : k'.src = k.src) : Inv (s.setTasks t (k' :: rest)) := by
  refine h.setTasks ?_ ?_ ?_ ?_
  · intro x
    simp only [hk, List.map_cons, List.sum_cons, owns_eq htarget, owns_eq hsame]
  · intro a e
    simp only [hk, List.map_cons, List.sum_cons, releasing_eq htarget hsrc, releasing_eq hsame rfl]
  · intro a e
    simp only [hk, List.map_cons, List.sum_cons, copying_eq_zero htarget, copying_eq_zero hsame]
  · intro a b kind todo seen hmem
    obtain hhead | hrest := List.mem_cons.mp hmem
    · rw [← hhead] at htarget
      simp [Task.target] at htarget
    · exact ⟨todo, seen, by rw [hk]; exact List.mem_cons_of_mem k hrest, List.Subset.refl _⟩

/-! ## The decrement -/

/-- One reference of several goes. -/
theorem decrement_of_lt (h : Inv s) (hk : s.tasks t = k :: rest) (ho : k.target = some o)
    (hsrc : k.src = src) (hlt : (s.cells o).count ≠ 1) :
    Inv (((s.note src o).setCount o ((s.cells o).count - 1)).setTasks t rest) where
  count_eq x := by
    have hheld := State.held_setTasks
      (s := (s.note src o).setCount o ((s.cells o).count - 1)) t rest x
    have hpos := h.task_pos hk ho
    have hx := h.count_eq x
    simp only [State.setCount_tasks, State.note_tasks, hk, List.map_cons, List.sum_cons,
      owns_eq ho, State.held_setCount, State.held_note] at hheld
    simp only [State.setTasks_cells, State.setCount_cells, State.note_cells]
    obtain rfl | hxo := eq_or_ne x o
    · rw [if_pos rfl] at hheld ⊢
      omega
    · rw [if_neg hxo.symm] at hheld
      rw [if_neg hxo]
      omega
  dead x hx := by
    simp only [State.setTasks_cells, State.setCount_cells, State.note_cells] at hx
    obtain ⟨hcount, hslots⟩ := h.dead x hx
    simp only [State.setTasks_cells, State.setCount_cells, State.note_cells]
    refine ⟨?_, hslots⟩
    split_ifs with hxo
    · subst hxo
      omega
    · exact hcount
  unallocated x hx := by
    have hxo : x ≠ o := by
      rintro rfl
      exact absurd (h.lt_size (h.task_pos hk ho)) (not_lt.mpr hx)
    simpa [State.setCount, hxo] using h.unallocated x hx
  handles a e := by
    have hr := State.total_setTasks
      (s := (s.note src o).setCount o ((s.cells o).count - 1)) t rest (Task.releasing a e)
    have hc := State.total_setTasks
      (s := (s.note src o).setCount o ((s.cells o).count - 1)) t rest (Task.copying a e)
    have hae := h.handles a e
    simp only [State.setCount_tasks, State.note_tasks, hk, List.map_cons, List.sum_cons,
      releasing_eq ho hsrc, copying_eq_zero ho, State.total_setCount, State.total_note] at hr hc
    simp only [State.setTasks_cells, State.setTasks_released, State.setCount_released,
      State.note_released_count, State.setCount_cells, State.note_cells]
    omega
  dups := by
    refine h.dups.mono ?_ (fun _ _ _ => le_rfl) (fun _ _ _ _ he => by simpa using he)
    intro t' a b kind todo seen hmem
    simp only [State.setTasks_tasks] at hmem
    exact dup_mem_of_append [] hk (fun _ _ _ _ _ => List.not_mem_nil) t' a b kind todo seen
      hmem

/-- The last reference goes, and with it the header; its elements are on the way. -/
theorem decrement_last (h : Inv s) {p : Proc} (hk : s.tasks t = k :: rest) (ho : k.target = some o)
    (hsrc : k.src = src) (hlast : (s.cells o).count = 1) (hshed : s.Sheds o p) :
    Inv (((s.note src o).setCell o ⟨0, [], (s.cells o).elems, true⟩).setTasks t
      (p.releases o 0 (s.cells o).slots ++ rest)) where
  count_eq x := by
    have hheld := State.held_setTasks
      (s := (s.note src o).setCell o ⟨0, [], (s.cells o).elems, true⟩) t
      (p.releases o 0 (s.cells o).slots ++ rest) x
    have hcell := State.held_setCell (s := s.note src o)
      (h.lt_size (h.task_pos hk ho)) ⟨0, [], (s.cells o).elems, true⟩ x
    have howns := p.owns_releases o x 0 (s.cells o).slots
    rw [List.count_eq_zero.mpr (hshed x)] at howns
    have hx := h.count_eq x
    simp only [State.setCell_tasks, State.note_tasks, hk, List.map_cons, List.sum_cons,
      owns_eq ho, List.map_append, List.sum_append] at hheld
    simp only [State.held_note, State.note_cells, List.count_nil] at hcell
    simp only [State.setTasks_cells, State.setCell_cells, State.note_cells]
    obtain rfl | hxo := eq_or_ne x o
    · rw [if_pos rfl] at hheld ⊢
      simp only
      omega
    · rw [if_neg hxo.symm] at hheld
      rw [if_neg hxo]
      omega
  dead x hx := by
    simp only [State.setTasks_cells, State.setCell_cells, State.note_cells] at hx ⊢
    split_ifs at hx ⊢ with hxo
    · exact ⟨rfl, rfl⟩
    · exact h.dead x hx
  unallocated x hx := by
    have hxo : x ≠ o := by
      rintro rfl
      exact absurd (h.lt_size (h.task_pos hk ho)) (not_lt.mpr hx)
    simpa [hxo] using h.unallocated x hx
  handles a e := by
    have hr := State.total_setTasks
      (s := (s.note src o).setCell o ⟨0, [], (s.cells o).elems, true⟩) t
      (p.releases o 0 (s.cells o).slots ++ rest) (Task.releasing a e)
    have hc := State.total_setTasks
      (s := (s.note src o).setCell o ⟨0, [], (s.cells o).elems, true⟩) t
      (p.releases o 0 (s.cells o).slots ++ rest) (Task.copying a e)
    have hae := h.handles a e
    have howns := p.owns_releases o e 0 (s.cells o).slots
    rw [List.count_eq_zero.mpr (hshed e)] at howns
    simp only [State.setCell_tasks, State.note_tasks, hk, List.map_cons, List.sum_cons,
      releasing_eq ho hsrc, copying_eq_zero ho, List.map_append, List.sum_append,
      p.releasing_releases, p.copying_releases, State.total_setCell, State.total_note] at hr hc
    simp only [State.setTasks_cells, State.setTasks_released, State.setCell_released,
      State.note_released_count, State.setCell_cells, State.note_cells]
    obtain rfl | hao := eq_or_ne a o
    · rw [if_pos rfl] at hr
      simp only [if_true, List.count_nil]
      omega
    · rw [if_neg hao.symm] at hr
      simp only [if_neg hao]
      omega
  dups := by
    refine h.dups.mono ?_ (fun _ _ _ => le_rfl) ?_
    · intro t' a b kind todo seen hmem
      simp only [State.setTasks_tasks] at hmem
      exact dup_mem_of_append _ hk (fun _ _ _ _ _ => p.not_dup_mem_releases o 0 _) t' a b kind todo
        seen hmem
    · intro t' a e ha he
      have hao : a ≠ o := by
        rintro rfl
        rw [h.refs_eq_zero hk ho hlast] at ha
        exact lt_irrefl 0 ha
      simpa [hao] using he

/-! ## Calling a release -/

/-- A release that looked first and saw one takes the elements it has a release for. -/
theorem takeElems (h : Inv s) (p q : Proc) (hk : s.tasks t = k :: rest) (ho : k.target = some o)
    (hsrc : k.src = src) (hlast : (s.cells o).count = 1) :
    Inv ((s.setSlots o (p.leaves 0 (s.cells o).slots)).setTasks t
      (p.releases o 0 (s.cells o).slots ++ .release o q src :: rest)) where
  count_eq x := by
    have hheld := State.held_setTasks (s := s.setSlots o (p.leaves 0 (s.cells o).slots)) t
      (p.releases o 0 (s.cells o).slots ++ .release o q src :: rest) x
    have hslots := State.held_setSlots (h.lt_size (h.task_pos hk ho))
      (p.leaves 0 (s.cells o).slots) x
    have howns := p.owns_releases o x 0 (s.cells o).slots
    have hx := h.count_eq x
    simp only [State.setSlots_tasks, hk, List.map_cons, List.sum_cons, List.map_append,
      List.sum_append, owns_eq ho, owns_eq (k := .release o q src) rfl] at hheld
    simp only [State.setTasks_cells, State.setSlots_cells]
    omega
  dead x hx := by
    simp only [State.setTasks_cells, State.setSlots_cells] at hx
    obtain ⟨hcount, hslots⟩ := h.dead x hx
    have hxo : x ≠ o := by
      rintro rfl
      omega
    simp [hxo, hcount, hslots]
  unallocated x hx := by
    have hxo : x ≠ o := by
      rintro rfl
      exact absurd (h.lt_size (h.task_pos hk ho)) (not_lt.mpr hx)
    simpa [State.setSlots, hxo] using h.unallocated x hx
  handles a e := by
    have hr := State.total_setTasks (s := s.setSlots o (p.leaves 0 (s.cells o).slots)) t
      (p.releases o 0 (s.cells o).slots ++ .release o q src :: rest) (Task.releasing a e)
    have hc := State.total_setTasks (s := s.setSlots o (p.leaves 0 (s.cells o).slots)) t
      (p.releases o 0 (s.cells o).slots ++ .release o q src :: rest) (Task.copying a e)
    have hae := h.handles a e
    have howns := p.owns_releases o e 0 (s.cells o).slots
    simp only [State.setSlots_tasks, State.total_setSlots, hk, List.map_cons, List.sum_cons,
      List.map_append, List.sum_append, p.releasing_releases, p.copying_releases,
      releasing_eq ho hsrc, releasing_eq (k := .release o q src) rfl (Eq.refl src), copying_eq_zero ho,
      copying_eq_zero (k := .release o q src) rfl] at hr hc
    simp only [State.setTasks_cells, State.setTasks_released, State.setSlots_released,
      State.setSlots_cells]
    obtain rfl | hao := eq_or_ne a o
    · rw [if_pos rfl] at hr ⊢
      omega
    · rw [if_neg hao.symm] at hr
      rw [if_neg hao]
      omega
  dups := by
    refine h.dups.mono ?_ (fun _ _ _ => le_rfl) ?_
    · intro t' a b kind todo seen hmem
      simp only [State.setTasks_tasks, State.setSlots_tasks] at hmem
      refine dup_mem_of_append (p.releases o 0 (s.cells o).slots ++ [.release o q src]) hk ?_
        t' a b kind todo seen (by simpa using hmem)
      intro a b kind todo seen
      simpa using p.not_dup_mem_releases o 0 _
    · intro t' a e ha he
      have hao : a ≠ o := by
        rintro rfl
        rw [h.refs_eq_zero hk ho hlast] at ha
        exact lt_irrefl 0 ha
      simpa [hao] using he

section

variable (h : Inv s) (hk : s.tasks t = k :: rest) (ho : k.target = some o) (hsrc : k.src = src)

include h hk ho hsrc

theorem decrement {p : Proc} (hshed : (s.cells o).count = 1 → s.Sheds o p) :
    Inv (s.decrement t o p src rest) := by
  simp only [State.decrement]
  split_ifs with hlast
  · exact h.decrement_last hk ho hsrc hlast (hshed hlast)
  · exact h.decrement_of_lt hk ho hsrc hlast

theorem loop {p : Proc} (hshed : (s.cells o).count = 1 → p ≠ .structReleaseShared ∧ s.Sheds o p) :
    Inv (s.loop t o (s.cells o).count p src rest) := by
  have hpos := h.task_pos hk ho
  simp only [State.loop]
  split_ifs with hle
  · -- a count above zero is at the floor only for a box, and then it is one
    cases p with
    | structDrop => exact h.decrement hk ho hsrc fun hlast => (hshed hlast).2
    | structReleaseShared => exact absurd rfl (hshed (by simp only [Proc.floor] at hle; omega)).1
    | _ => exact absurd hle (by simp only [Proc.floor]; omega)
  · exact h.next hk rfl ho hsrc.symm

theorem start {p : Proc}
    (hshed : p.peeks = false → (s.cells o).count = 1 → p ≠ .structReleaseShared ∧ s.Sheds o p) :
    Inv (s.start t o p src rest) := by
  simp only [State.start]
  split_ifs with hpeeks hlast
  · exact h.takeElems p .free hk ho hsrc hlast
  · exact h.next hk rfl ho hsrc.symm
  · have hshed' := hshed (Bool.eq_false_of_not_eq_true hpeeks)
    cases p with
    | arcRelease => exact h.decrement hk ho hsrc fun hlast => (hshed' hlast).2
    | _ => exact h.loop hk ho hsrc hshed'

end

theorem release (h : Inv s) (p : Proc) (hidle : s.tasks t = []) (hr : 0 < s.refs t o) :
    Inv ((s.setRefs t o (s.refs t o - 1)).setTasks t [.release o p none]) where
  count_eq x := by
    have hheld := State.held_setTasks (s := s.setRefs t o (s.refs t o - 1)) t
      [.release o p none] x
    have hrefs := State.held_setRefs (s := s) t o (s.refs t o - 1) x
    have hx := h.count_eq x
    simp only [State.setRefs_tasks, hidle, List.map_cons, List.map_nil, List.sum_cons,
      List.sum_nil, owns_eq (k := .release o p none) rfl] at hheld
    simp only [State.setTasks_cells, State.setRefs_cells]
    obtain rfl | hxo := eq_or_ne x o
    · simp only [if_true] at hheld hrefs
      omega
    · simp only [if_neg hxo, if_neg hxo.symm] at hheld hrefs
      omega
  dead := h.dead
  unallocated := h.unallocated
  handles a e := by
    have hr := State.total_setTasks (s := s.setRefs t o (s.refs t o - 1)) t
      [.release o p none] (Task.releasing a e)
    have hc := State.total_setTasks (s := s.setRefs t o (s.refs t o - 1)) t
      [.release o p none] (Task.copying a e)
    have hae := h.handles a e
    simp [hidle, Task.releasing, Task.src, Task.copying] at hr hc
    simp only [State.setTasks_cells, State.setTasks_released, State.setRefs_cells,
      State.setRefs_released]
    omega
  dups := by
    refine h.dups.mono ?_ ?_ (fun _ _ _ _ he => he)
    · intro t' a b kind todo seen hmem
      refine ⟨todo, seen, ?_, List.Subset.refl _⟩
      simp only [State.setTasks_tasks, State.setRefs_tasks] at hmem
      split_ifs at hmem with ht
      · simp at hmem
      · exact hmem
    · intro t' x hbusy
      have ht : t' ≠ t := by
        rintro rfl
        exact hbusy hidle
      simp [ht]

theorem give (h : Inv s) (t' : T) (hidle : s.tasks t = []) (hr : 0 < s.refs t o) :
    Inv ((s.setRefs t o (s.refs t o - 1)).setRefs t' o
      ((s.setRefs t o (s.refs t o - 1)).refs t' o + 1)) where
  count_eq x := by
    have hfrom := State.held_setRefs (s := s) t o (s.refs t o - 1) x
    have hto := State.held_setRefs (s := s.setRefs t o (s.refs t o - 1)) t' o
      ((s.setRefs t o (s.refs t o - 1)).refs t' o + 1) x
    have hx := h.count_eq x
    rw [State.setRefs_cells, State.setRefs_cells]
    obtain rfl | hxo := eq_or_ne x o
    · simp only [if_true] at hfrom hto
      omega
    · simp only [if_neg hxo] at hfrom hto
      omega
  dead := h.dead
  unallocated := h.unallocated
  handles := h.handles
  dups := by
    refine h.dups.mono (fun _ _ _ _ todo seen hk => ⟨todo, seen, hk, List.Subset.refl _⟩) ?_
      (fun _ _ _ _ he => he)
    intro t'' x hbusy
    have ht : t'' ≠ t := by
      rintro rfl
      exact hbusy hidle
    rw [State.setRefs_refs]
    split_ifs with hx
    · obtain ⟨rfl, rfl⟩ := hx
      simp [ht]
    · simp [ht]

/-! ## Copying -/

/-- A fresh header of the thread, with `hs` in its slots and `ts` on the way into them. -/
theorem alloc (h : Inv s) (hs elems : List (Option Handle)) (ts : List Task)
    (hidle : s.tasks t = []) (hslots : ∀ e, some e ∉ hs)
    (howns : ∀ x, (ts.map (Task.owns x)).sum = 0)
    (hrel : ∀ a e, (ts.map (Task.releasing a e)).sum = 0)
    (hcopy : ∀ b e, (ts.map (Task.copying b e)).sum =
      if b = s.size then elems.count (some e) else 0)
    (hdup : ∀ a b kind todo seen, Task.dup a b kind todo seen ∈ ts →
      0 < s.refs t a ∧ b = s.size ∧ todo = (s.cells a).slots) :
    Inv (((s.alloc ⟨1, hs, elems, false⟩).setRefs t s.size (s.refs t s.size + 1)).setTasks t ts) where
  count_eq x := by
    have halloc := State.held_alloc (s := s) ⟨1, hs, elems, false⟩ x
    have hrefs := State.held_setRefs (s := s.alloc ⟨1, hs, elems, false⟩) t s.size
      (s.refs t s.size + 1) x
    have htasks := State.held_setTasks
      (s := (s.alloc ⟨1, hs, elems, false⟩).setRefs t s.size (s.refs t s.size + 1)) t ts x
    have hx := h.count_eq x
    simp only [State.setRefs_tasks, State.alloc_tasks, hidle, howns, List.map_nil, List.sum_nil]
      at htasks
    simp only [List.count_eq_zero.mpr (hslots x)] at halloc
    simp only [State.setTasks_cells, State.setRefs_cells, State.alloc_cells]
    simp only [State.alloc_refs] at hrefs
    obtain rfl | hxo := eq_or_ne x s.size
    · rw [h.unallocated s.size le_rfl] at hx
      simp only [if_true] at hx hrefs ⊢
      omega
    · simp only [if_neg hxo] at hrefs ⊢
      omega
  dead x hx := by
    simp only [State.setTasks_cells, State.setRefs_cells, State.alloc_cells] at hx ⊢
    split_ifs at hx ⊢ with hxo
    exact h.dead x hx
  unallocated x hx := by
    simp only [State.setTasks_size, State.setRefs_size, State.alloc_size] at hx
    simpa [Nat.ne_of_gt hx] using h.unallocated x (Nat.le_of_succ_le hx)
  handles a e := by
    have hr := State.total_setTasks
      (s := (s.alloc ⟨1, hs, elems, false⟩).setRefs t s.size (s.refs t s.size + 1)) t ts
      (Task.releasing a e)
    have hc := State.total_setTasks
      (s := (s.alloc ⟨1, hs, elems, false⟩).setRefs t s.size (s.refs t s.size + 1)) t ts
      (Task.copying a e)
    have hae := h.handles a e
    simp only [State.setRefs_tasks, State.alloc_tasks, hidle, hrel, hcopy, List.map_nil,
      List.sum_nil, State.total_setRefs, State.total_alloc] at hr hc
    simp only [State.setTasks_cells, State.setTasks_released, State.setRefs_cells,
      State.setRefs_released, State.alloc_cells, State.alloc_released]
    obtain rfl | hao := eq_or_ne a s.size
    · rw [h.unallocated s.size le_rfl] at hae
      simp only [if_true, List.count_nil, List.count_eq_zero.mpr (hslots e)] at hae hc ⊢
      omega
    · simp only [if_neg hao] at hc ⊢
      omega
  dups := by
    intro t' a b kind todo seen hmem
    simp only [State.setTasks_tasks, State.setRefs_tasks, State.alloc_tasks] at hmem
    simp only [State.setTasks_refs, State.setRefs_refs, State.alloc_refs, State.setTasks_cells,
      State.setRefs_cells, State.alloc_cells]
    split_ifs at hmem with ht
    · subst ht
      obtain ⟨ha, rfl, rfl⟩ := hdup a b kind todo seen hmem
      have hne : a ≠ s.size := Nat.ne_of_lt (h.lt_size (h.ref_pos ha))
      simp only [hne, and_false, if_false, and_self, if_true]
      exact ⟨ha, Nat.succ_pos _, fun _ he => he⟩
    · obtain ⟨ha, hb, htodo⟩ := h.dups t' a b kind todo seen hmem
      have hne : a ≠ s.size := Nat.ne_of_lt (h.lt_size (h.ref_pos ha))
      simp only [ht, false_and, if_false, hne]
      exact ⟨ha, hb, htodo⟩

variable {kind : BitVec 64}

theorem dup (h : Inv s) (hidle : s.tasks t = []) (hr : 0 < s.refs t a)
    (hkind : kind = 1 ∨ kind = 2 ∨ kind = 4 ∨ ∀ e, some e ∉ (s.cells a).slots) :
    Inv (s.dup t a kind) := by
  simp only [State.dup]
  split_ifs with hcounts
  · refine h.alloc [] _ _ hidle (fun _ => List.not_mem_nil) ?_ ?_ ?_ ?_
    · intro x
      simp [Task.owns, Task.target]
    · intro a e
      simp [Task.releasing, Task.target]
    · intro b e
      simp [Task.copying, eq_comm]
    · intro a' b kind todo seen hmem
      obtain ⟨rfl, rfl, rfl, rfl, rfl⟩ : a' = a ∧ b = s.size ∧ _ ∧ todo = (s.cells a).slots ∧ _ := by
        simpa using hmem
      exact ⟨hr, rfl, rfl⟩
  · have hslots : ∀ e, some e ∉ (s.cells a).slots := by tauto
    have hinv := h.alloc (s.cells a).slots (s.cells a).slots [] hidle hslots (fun _ => rfl)
      (fun _ _ => rfl) ?_ (by simp)
    · rwa [State.setTasks_self] at hinv
      exact hidle
    · intro b e
      simp [List.count_eq_zero.mpr (hslots e)]

/-- The next slot of the copy is filled, its element having been counted up in `s'`. -/
theorem fillSlot (h : Inv s) {b : Handle} {slot : Option Handle} {todo : List (Option Handle)}
    {seen : Option ℕ} {s' : State T} (hk : s.tasks t = .dup a b kind (slot :: todo) seen :: rest)
    (hcount : ∀ x, (s'.cells x).count = (s.cells x).count + if slot = some x then 1 else 0)
    (hslots : ∀ x, (s'.cells x).slots = (s.cells x).slots)
    (helems : ∀ x, (s'.cells x).elems = (s.cells x).elems)
    (hfreed : ∀ x, (s'.cells x).freed = (s.cells x).freed)
    (hfresh : ∀ x, s.size ≤ x → s'.cells x = s.cells x) (hsize : s'.size = s.size)
    (hrefs : s'.refs = s.refs) (htasks : s'.tasks = s.tasks) (hreleased : s'.released = s.released)
    : Inv (s'.fillSlot t a b kind slot todo rest) := by
  have hmem : Task.dup a b kind (slot :: todo) seen ∈ s.tasks t := by
    rw [hk]
    exact List.mem_cons_self
  obtain ⟨ha, hb, htodo⟩ := h.dups t a b kind (slot :: todo) seen hmem
  have hbsize : b < s.size := h.lt_size (h.ref_pos hb)
  have htotal : ∀ f, s'.total f = s.total f := fun f => by simp only [State.total, htasks]
  have hheld : ∀ x, s'.held x = s.held x := fun x => by
    simp only [State.held, htotal, hrefs, hsize, hslots]
  have hsame : ∀ (slots : List (Option Handle)) (x : Handle),
      (slots ++ [slot]).count (some x) = slots.count (some x) + if slot = some x then 1 else 0 := by
    intro slots x
    simp [List.count_append, List.count_singleton]
  constructor
  · intro x
    have hset := State.held_setTasks (s := s'.setSlots b ((s'.cells b).slots ++ [slot])) t
      (.dup a b kind todo none :: rest) x
    have hfill := State.held_setSlots (s := s') (hsize ▸ hbsize) ((s'.cells b).slots ++ [slot]) x
    have hx := h.count_eq x
    simp only [State.setSlots_tasks, htasks, hk, List.map_cons, List.sum_cons, Task.owns,
      Task.target, reduceCtorEq, if_false] at hset
    rw [hsame, hheld] at hfill
    simp only [State.fillSlot, State.setTasks_cells, State.setSlots_cells, hcount]
    omega
  · intro x hx
    simp only [State.fillSlot, State.setTasks_cells, State.setSlots_cells, hfreed] at hx
    obtain ⟨hzero, hnil⟩ := h.dead x hx
    have hxb : x ≠ b := by
      rintro rfl
      have := h.ref_pos hb
      omega
    have hxe : slot ≠ some x := by
      rintro rfl
      have := h.slot_pos (htodo x List.mem_cons_self)
      omega
    simp [State.fillSlot, hxb, hcount, hxe, hslots, hzero, hnil]
  · intro x hx
    have hx' : s.size ≤ x := by simpa [State.fillSlot, hsize] using hx
    have hxb : x ≠ b := Nat.ne_of_gt (hbsize.trans_le hx')
    simp [State.fillSlot, State.setSlots, hxb, hfresh x hx', h.unallocated x hx']
  · intro c e
    have hr := State.total_setTasks (s := s'.setSlots b ((s.cells b).slots ++ [slot])) t
      (.dup a b kind todo none :: rest) (Task.releasing c e)
    have hc := State.total_setTasks (s := s'.setSlots b ((s.cells b).slots ++ [slot])) t
      (.dup a b kind todo none :: rest) (Task.copying c e)
    have hce := h.handles c e
    simp only [State.setSlots_tasks, State.total_setSlots, htasks, htotal, hk, List.map_cons,
      List.sum_cons, Task.releasing, Task.target, Task.copying, List.count_cons, beq_iff_eq,
      reduceCtorEq, false_and, if_false] at hr hc
    simp only [State.fillSlot, State.setTasks_cells, State.setTasks_released,
      State.setSlots_released, hreleased, State.setSlots_cells, helems,
      hslots]
    obtain rfl | hcb := eq_or_ne c b
    · simp only [if_true] at hc ⊢
      rw [hsame]
      omega
    · simp only [if_neg hcb, if_neg hcb.symm] at hc ⊢
      omega
  · refine h.dups.mono ?_ ?_ ?_
    · intro t' a' b' kind' todo' seen' hmem'
      simp only [State.fillSlot, State.setTasks_tasks, State.setSlots_tasks, htasks] at hmem'
      split_ifs at hmem' with ht
      · subst ht
        obtain heq | hrest := List.mem_cons.mp hmem'
        · obtain ⟨rfl, rfl, rfl, rfl, rfl⟩ :
              a' = a ∧ b' = b ∧ kind' = kind ∧ todo' = todo ∧ seen' = none := by simpa using heq
          exact ⟨slot :: todo', seen, hmem, List.subset_cons_self _ _⟩
        · exact ⟨todo', seen', by rw [hk]; exact List.mem_cons_of_mem _ hrest, List.Subset.refl _⟩
      · exact ⟨todo', seen', hmem', List.Subset.refl _⟩
    · intro t' x _
      simp [State.fillSlot, hrefs]
    · intro t' c e _ he
      simp only [State.fillSlot, State.setTasks_cells, State.setSlots_cells, hslots]
      split_ifs with hcb
      · subst hcb
        exact List.mem_append_left _ he
      · exact he

theorem dupStep (h : Inv s) {b : Handle} {todo : List (Option Handle)} {seen : Option ℕ}
    (hk : s.tasks t = .dup a b kind todo seen :: rest)
    (hseen : ∀ e todo' v, todo = some e :: todo' → seen = some v → kind = 1 →
      (s.cells e).count = v) : Inv (s.dupStep t a b kind rest todo seen) := by
  have hcounted : ∀ {e : Handle} {todo' : List (Option Handle)}, todo = some e :: todo' →
      Inv ((s.setCount e ((s.cells e).count + 1)).fillSlot t a b kind (some e) todo' rest) := by
    rintro e todo' rfl
    have he : e < s.size := by
      refine h.lt_size (h.slot_pos (a := a) ?_)
      exact (h.dups t a b kind _ seen (by rw [hk]; exact List.mem_cons_self)).2.2 e
        List.mem_cons_self
    refine h.fillSlot hk ?_ (by simp) (by simp) (by simp) ?_ rfl rfl rfl rfl
    · intro x
      rw [State.setCount_cells]
      obtain rfl | hxe := eq_or_ne x e
      · simp
      · simp [hxe, hxe.symm]
    · intro x hx
      simp [State.setCount, Nat.ne_of_gt (he.trans_le hx)]
  cases todo with
  | nil =>
    refine h.setTasks ?_ ?_ ?_ ?_
    · intro x
      simp [hk, Task.owns, Task.target]
    · intro c e
      simp [hk, Task.releasing, Task.target]
    · intro c e
      simp [hk, Task.copying]
    · intro a' b' kind' todo' seen' hmem
      exact ⟨todo', seen', by rw [hk]; exact List.mem_cons_of_mem _ hmem, List.Subset.refl _⟩
  | cons slot todo =>
    cases slot with
    | none => exact h.fillSlot hk (by simp) (by simp) (by simp) (by simp) (by simp) rfl rfl rfl rfl
    | some e =>
      simp only [State.dupStep]
      split_ifs with hkind
      · cases seen with
        | none =>
          refine h.setTasks ?_ ?_ ?_ ?_
          · intro x
            simp [hk, Task.owns, Task.target]
          · intro c e
            simp [hk, Task.releasing, Task.target]
          · intro c e
            simp [hk, Task.copying]
          · intro a' b' kind' todo' seen' hmem
            obtain heq | hrest := List.mem_cons.mp hmem
            · obtain ⟨rfl, rfl, rfl, rfl, -⟩ : a' = a ∧ b' = b ∧ kind' = kind ∧
                  todo' = some e :: todo ∧ _ := by simpa using heq
              exact ⟨_, none, by rw [hk]; exact List.mem_cons_self, List.Subset.refl _⟩
            · exact ⟨todo', seen', by rw [hk]; exact List.mem_cons_of_mem _ hrest,
                List.Subset.refl _⟩
        | some v =>
          have hv := hseen e todo v rfl rfl hkind
          subst hv
          exact hcounted rfl
      · exact hcounted rfl

end Inv

/-! ## Every interleaving -/

variable [Fintype T]

theorem Inv.step [DecidableEq T] {s s' : State T} {a : Action T} (h : Inv s) (hok : Undisturbed s a)
    (hstep : step s a = some s') : Inv s' := by
  cases a with
  | retain t o =>
    simp only [ArrayRc.step] at hstep
    split_ifs at hstep with hen
    obtain rfl := Option.some.inj hstep
    exact h.retain t (h.ref_pos hen.2)
  | retainElem t a e =>
    simp only [ArrayRc.step] at hstep
    split_ifs at hstep with hen
    obtain rfl := Option.some.inj hstep
    exact h.retain t (h.slot_pos hen.2.2)
  | give t t' o =>
    simp only [ArrayRc.step] at hstep
    split_ifs at hstep with hen
    obtain rfl := Option.some.inj hstep
    exact h.give t' hen.1 hen.2
  | release t o p =>
    simp only [ArrayRc.step] at hstep
    split_ifs at hstep with hen
    obtain rfl := Option.some.inj hstep
    exact h.release p hen.1 hen.2
  | dup t a kind =>
    simp only [ArrayRc.step] at hstep
    split_ifs at hstep with hen
    obtain rfl := Option.some.inj hstep
    exact h.dup hen.1 hen.2 hok
  | tick t fail =>
    simp only [ArrayRc.step, State.tick] at hstep
    cases hk : s.tasks t with
    | nil => simp [hk] at hstep
    | cons k rest =>
      simp only [Undisturbed, hk] at hok
      cases k with
      | release o p src =>
        simp only [hk, Option.some.injEq] at hstep
        rw [← hstep]
        exact h.start hk rfl rfl hok
      | swap o rc p src =>
        simp only [hk] at hstep
        split_ifs at hstep
        · obtain rfl := Option.some.inj hstep
          exact h.loop hk rfl rfl hok
        · obtain rfl := Option.some.inj hstep
          exact h.decrement hk rfl rfl fun hlast => (hok hlast).2
      | dup a b kind todo seen =>
        simp only [hk, Option.some.injEq] at hstep
        rw [← hstep]
        refine h.dupStep hk ?_
        rintro e todo' v rfl rfl hkind
        exact hok hkind

theorem Initial.inv (h : Initial s) : Inv s where
  count_eq := h.count_eq
  dead o ho := by simp [h.freed o] at ho
  unallocated := h.unallocated
  handles a e := by simp [State.total, h.idle, h.released, h.elems]
  dups t a b kind todo seen hk := by simp [h.idle] at hk

/-- The elements of a freed array are no longer being copied into it. -/
theorem Inv.copying_freed (h : Inv s) (ha : (s.cells a).freed = true) (e : Handle) :
    s.total (Task.copying a e) = 0 := by
  have hzero : ∀ t, ∀ k ∈ s.tasks t, k.copying a e = 0 := by
    intro t k hk
    cases k with
    | release _ _ _ | swap _ _ _ _ => rfl
    | dup a' b kind todo seen =>
      have hb := h.ref_pos (h.dups t a' b kind todo seen hk).2.1
      have hba : b ≠ a := by
        rintro rfl
        have := (h.dead b ha).1
        omega
      simp [Task.copying, hba]
  refine Finset.sum_eq_zero fun t _ => ?_
  rw [List.map_congr_left (g := fun _ => 0) (hzero t)]
  simp

theorem Inv.exact {s : State T} (h : Inv s) : Exact s where
  count_eq := h.count_eq
  not_early o ho := by rw [← h.count_eq, (h.dead o ho).1]
  elems_once a ha e := by
    have := h.handles a e
    rw [h.copying_freed ha, (h.dead a ha).2, List.count_nil] at this
    exact this

/-- **Counts are exact.** In every interleaving of any number of threads, as long as no step is
disturbed, each count equals the number of references, nothing is freed while a reference remains,
and an array that is freed has released each of its elements once. -/
theorem counts_are_exact [DecidableEq T] {s : State T}
    (hs : (counting T).ReachableWhen Undisturbed s) : Exact s := by
  have hinv : Inv s :=
    hs.invariant (fun _ h₀ => Initial.inv h₀) fun _ _ _ h hok hstep => Inv.step h hok hstep
  exact hinv.exact

/-! ## Two threads, one array -/

/-- Two threads hold the array 0, whose only element is the string 1. -/
def shared : State Bool where
  cells
    | 0 => ⟨2, [some 1], [some 1], false⟩
    | 1 => ⟨1, [], [], false⟩
    | _ => ⟨0, [], [], false⟩
  size := 2
  refs _
    | 0 => 1
    | _ => 0
  tasks _ := []
  released := []

theorem shared_initial : Initial shared where
  count_eq
    | 0 | 1 => by decide
    | o + 2 => by simp [shared, State.held, State.total, Finset.sum_range_succ]
  idle _ := rfl
  released := rfl
  elems
    | 0 | 1 | _ + 2 => rfl
  freed
    | 0 | 1 | _ + 2 => rfl
  unallocated
    | _ + 2, _ => rfl

/-- One release after the other: the second finds the count at one, and the string goes with the
array. -/
theorem counts_are_exact_in_turn : ∃ s : State Bool,
    (counting Bool).ReachableWhen Undisturbed s ∧ (s.cells 0).freed = true ∧
      (s.cells 1).freed = true ∧ s.released = [(0, 1)] ∧ Exact s := by
  have hrun : (counting Bool).schedule shared
      [.release true 0 (.freeTyped 1), .tick true false, .tick true false,
        .release false 0 (.freeElems .free), .tick false false, .tick false false,
        .tick false false, .tick false false, .tick false false] = some _ := rfl
  have hok : (counting Bool).Admits Undisturbed shared
      [.release true 0 (.freeTyped 1), .tick true false, .tick true false,
        .release false 0 (.freeElems .free), .tick false false, .tick false false,
        .tick false false, .tick false false, .tick false false] := by
    -- the count is two at the first release; later there is nothing left in the slots
    have hstring : ∀ e, some e ∉ ([] : List (Option Handle)) := fun _ => List.not_mem_nil
    have harray : ∀ e, some e ∉ ([none] : List (Option Handle)) := by simp
    exact ⟨trivial, fun _ h => absurd h (by decide), fun h => absurd h (by decide), trivial,
      fun h => absurd h (by decide), fun _ _ => ⟨nofun, hstring⟩, fun _ => ⟨nofun, hstring⟩,
      fun _ _ => ⟨nofun, harray⟩, fun _ => ⟨nofun, harray⟩, trivial⟩
  have hs := Protocol.reachableWhen_of_schedule shared_initial hrun hok
  exact ⟨_, hs, rfl, rfl, rfl, counts_are_exact hs⟩

/-- Both threads look at the count before either decrements it, and neither takes the elements: the
array is freed, and nothing refers to the string any more, which still counts one. -/
theorem last_release_leaks : ¬ ∀ (T : Type) (_ : Fintype T) (_ : DecidableEq T) (s : State T),
    (counting T).Reachable s → Exact s := by
  intro hall
  have hrun : (counting Bool).schedule shared
      [.release true 0 (.freeElems .free), .release false 0 (.freeElems .free),
        .tick true false, .tick false false, .tick true false, .tick true false,
        .tick false false, .tick false false] = some _ := rfl
  have hs := Protocol.reachable_of_schedule shared_initial hrun
  have hcount := (hall Bool inferInstance inferInstance _ hs).count_eq 1
  exact absurd hcount (by decide)

end Kryos.Runtime.ArrayRc
