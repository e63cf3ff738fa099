import Kryos.Mir.DynOwn
import Mathlib.Algebra.BigOperators.Group.Finset.Piecewise
import Mathlib.Algebra.Order.BigOperators.Group.Finset

/-!
# Counting references to fat boxes

The reference counts of a run of a function, as far as `dyn` locals decide them. A box that a local
holds is counted up by a definition that brings a reference and by a retain, and down by a `Drop`
and by every use that takes a reference, whether the new holder keeps it or not. A copy hands the
reference it takes to its destination. Values that are not boxes are `none`, among them those of
locals of other types.

Everything else a run does is arbitrary: which box a call returns or a field read finds, and which
way a terminator goes.

## Main definitions

* `exec` — one instruction; `none` when it releases or uses a box whose count is zero
* `Safe` — a list of instructions runs through whatever the run chooses
* `Reaches` — the states of all runs along all paths
-/

namespace Kryos.DynOwn

/-- A fat box. -/
abbrev Box := ℕ

/-- What the `dyn` locals hold and the counts of the boxes. An alias that was just read is lent by
the container it was read from. -/
structure Mem where
  val : LocalId → Option Box
  count : Box → ℕ
  lent : Option LocalId

namespace Mem

/-- The local holds no box with a count of zero. -/
def live (m : Mem) (l : LocalId) : Bool :=
  match m.val l with
  | none => true
  | some b => 0 < m.count b

/-- One reference less to the box of a local. -/
def take (m : Mem) (l : LocalId) : Option Mem :=
  match m.val l with
  | none => some m
  | some b =>
    if m.count b = 0 then none
    else some { m with count := Function.update m.count b (m.count b - 1) }

/-- One reference more to the box of a local. -/
def give (m : Mem) (l : LocalId) : Mem :=
  match m.val l with
  | none => m
  | some b => { m with count := Function.update m.count b (m.count b + 1) }

end Mem

section Exec

variable (isDyn : LocalId → Bool) (borrows userFn : String → Bool)

/-- The local a call of `kryos_fn_retain` retains. -/
def retained : Instruction → Option LocalId
  | .assign _ (.call func [.local l]) => if func = "kryos_fn_retain" ∧ isDyn l then some l else none
  | _ => none

/-- The locals an instruction takes a reference from, one entry for each. -/
def consumed (inst : Instruction) : List LocalId :=
  ((instUses isDyn borrows inst).filter fun u => u.2.owning).map Prod.fst ++
    match inst with
    | .drop l => if isDyn l then [l] else []
    | _ => []

/-- The box a copy copies. -/
def copiedBox (m : Mem) : Instruction → Option Box
  | .assign _ (.use (.local l)) => if isDyn l then m.val l else none
  | _ => none

/-- The definition an instruction makes; `c` is the box a call returns or a read finds. -/
def define (c : Option Box) (inst : Instruction) (m : Mem) : Mem :=
  match instDef isDyn borrows userFn inst with
  | some (d, .owned) => ({ m with val := Function.update m.val d c, lent := none } : Mem).give d
  | some (d, .copied) =>
    ({ m with val := Function.update m.val d (copiedBox isDyn m inst), lent := none } : Mem).give d
  | some (d, .alias) => { m with val := Function.update m.val d c, lent := some d }
  | none => { m with lent := if isExceptionCheck inst then m.lent else none }

/-- One instruction. Every box it uses has a positive count, or is lent and retained here. -/
def exec (c : Option Box) (m : Mem) (inst : Instruction) : Option Mem :=
  if (instUses isDyn borrows inst).all fun u =>
      m.live u.1 || (m.lent = some u.1 && retained isDyn inst = some u.1) then
    ((consumed isDyn borrows inst).foldlM Mem.take m).map fun m' =>
      define isDyn borrows userFn c inst
        (match retained isDyn inst with
        | some l => m'.give l
        | none => m')
  else none

/-- The instructions run through from `m`, and whatever they do `Q` holds afterwards. -/
def Safe (Q : Mem → Prop) : List Instruction → Mem → Prop
  | [], m => Q m
  | inst :: rest, m => ∀ c, ∃ m', exec isDyn borrows userFn c m inst = some m' ∧ Safe Q rest m'

end Exec

/-- The states of the runs of `f` from `m₀`: in block `bi`, before the instructions `rest`. -/
inductive Reaches (borrows userFn : String → Bool) (f : MirFunction) (m₀ : Mem) :
    ℕ → List Instruction → Mem → Prop
  | entry {b : BasicBlock} : f.blocks[0]? = some b → Reaches borrows userFn f m₀ 0 b.instructions m₀
  | step {bi : ℕ} {inst : Instruction} {rest : List Instruction} {m m' : Mem} {c : Option Box} :
      Reaches borrows userFn f m₀ bi (inst :: rest) m →
      exec (isDyn f) borrows userFn c m inst = some m' → Reaches borrows userFn f m₀ bi rest m'
  | jump {bi bj : ℕ} {m : Mem} {b : BasicBlock} : Reaches borrows userFn f m₀ bi [] m →
      bj ∈ (succs f).getD bi [] → f.blocks[bj]? = some b →
      Reaches borrows userFn f m₀ bj b.instructions m

/-! ## Running through -/

section Safe

variable {isDyn : LocalId → Bool} {borrows userFn : String → Bool} {Q R : Mem → Prop} {m : Mem}

theorem Safe.mono (h : ∀ m, Q m → R m) :
    ∀ {is : List Instruction} {m : Mem}, Safe isDyn borrows userFn Q is m →
      Safe isDyn borrows userFn R is m
  | [], _, hs => h _ hs
  | _ :: _, _, hs => fun c => (hs c).imp fun _ hm => ⟨hm.1, Safe.mono h hm.2⟩

theorem safe_append {is js : List Instruction} : ∀ {m : Mem},
    Safe isDyn borrows userFn Q (is ++ js) m ↔
      Safe isDyn borrows userFn (Safe isDyn borrows userFn Q js) is m := by
  induction is with
  | nil => exact Iff.rfl
  | cons i is ih =>
    intro m
    exact forall_congr' fun c => exists_congr fun m' => and_congr_right fun _ => ih

end Safe

/-! ## Counts that are backed

A ghost assigns to each local the references it may still give away. The counts are *backed* when
each box is counted at least as often as its holders say, on top of the references `base` that the
caller keeps. -/

section Backed

variable {D : Finset LocalId} {base : Box → ℕ} {tok : LocalId → ℕ} {m : Mem} {l d : LocalId}
  {b : Box}

/-- The references that the locals of `D` have to a box. -/
def held (D : Finset LocalId) (tok : LocalId → ℕ) (val : LocalId → Option Box) (b : Box) : ℕ :=
  ∑ l ∈ D, if val l = some b then tok l else 0

def Backed (D : Finset LocalId) (base : Box → ℕ) (tok : LocalId → ℕ) (m : Mem) : Prop :=
  ∀ b, base b + held D tok m.val b ≤ m.count b

theorem held_split (hl : l ∈ D) (tok : LocalId → ℕ) (val : LocalId → Option Box) (b : Box) :
    held D tok val b = (if val l = some b then tok l else 0) + held (D.erase l) tok val b :=
  (Finset.add_sum_erase D _ hl).symm

/-- The references of the other locals do not depend on `l`. -/
theorem held_erase_congr {tok' : LocalId → ℕ} {val val' : LocalId → Option Box}
    (htok : ∀ i ≠ l, tok' i = tok i) (hval : ∀ i ≠ l, val' i = val i) (b : Box) :
    held (D.erase l) tok' val' b = held (D.erase l) tok val b := by
  refine Finset.sum_congr rfl fun i hi => ?_
  have hne : i ≠ l := Finset.ne_of_mem_erase hi
  rw [htok i hne, hval i hne]

section

variable (h : Backed D base tok m)

include h

theorem Backed.mono {tok' : LocalId → ℕ} (hle : ∀ l, tok' l ≤ tok l) : Backed D base tok' m := by
  intro b
  refine le_trans (Nat.add_le_add_left (Finset.sum_le_sum fun l _ => ?_) _) (h b)
  split_ifs
  · exact hle l
  · exact le_rfl

/-- A local with a reference holds a live box. -/
theorem Backed.count_pos (hl : l ∈ D) (hb : m.val l = some b) (hpos : 1 ≤ tok l) :
    0 < m.count b := by
  have hle := h b
  rw [held_split hl, if_pos hb] at hle
  omega

/-- A local gives one reference away. -/
theorem Backed.take (hl : l ∈ D) (hpos : ∀ b, m.val l = some b → 1 ≤ tok l) :
    ∃ m', m.take l = some m' ∧ m'.val = m.val ∧ m'.lent = m.lent ∧
      Backed D base (Function.update tok l (tok l - 1)) m' := by
  rcases hv : m.val l with _ | b
  · refine ⟨m, by simp [Mem.take, hv], rfl, rfl, h.mono fun i => ?_⟩
    rcases eq_or_ne i l with rfl | hne
    · simp
    · simp [hne]
  · have hcount := h.count_pos hl hv (hpos b hv)
    refine ⟨{ m with count := Function.update m.count b (m.count b - 1) }, ?_, rfl, rfl, fun b' => ?_⟩
    · simp [Mem.take, hv, hcount.ne']
    · have hle := h b'
      have hone := hpos b hv
      rw [held_split hl] at hle ⊢
      rw [held_erase_congr (fun i hi => Function.update_of_ne hi _ _) (fun _ _ => rfl)]
      rcases eq_or_ne b' b with rfl | hne
      · simp only [hv, if_true, Function.update_self] at hle ⊢
        omega
      · simpa [hv, hne, hne.symm] using hle

/-- A local gets one reference. -/
theorem Backed.give (hl : l ∈ D) :
    (m.give l).val = m.val ∧ Backed D base (Function.update tok l (tok l + 1)) (m.give l) := by
  rcases hv : m.val l with _ | b
  · have hsame : m.give l = m := by simp [Mem.give, hv]
    rw [hsame]
    refine ⟨rfl, fun b => ?_⟩
    have hle := h b
    rw [held_split hl] at hle ⊢
    rw [held_erase_congr (fun i hi => Function.update_of_ne hi _ _) (fun _ _ => rfl)]
    simpa [hv] using hle
  · have hsame : m.give l = { m with count := Function.update m.count b (m.count b + 1) } := by
      simp [Mem.give, hv]
    rw [hsame]
    refine ⟨rfl, fun b' => ?_⟩
    have hle := h b'
    rw [held_split hl] at hle ⊢
    rw [held_erase_congr (fun i hi => Function.update_of_ne hi _ _) (fun _ _ => rfl)]
    rcases eq_or_ne b' b with rfl | hne
    · simp only [hv, if_true, Function.update_self] at hle ⊢
      omega
    · simpa [hv, hne, hne.symm] using hle

/-- A local that forgets what it held. -/
theorem Backed.set (hl : l ∈ D) (c : Option Box) (lent : Option LocalId) :
    Backed D base (Function.update tok l 0) { m with val := Function.update m.val l c, lent } := by
  intro b
  have hle := h b
  rw [held_split hl] at hle ⊢
  rw [held_erase_congr (fun i hi => Function.update_of_ne hi _ _)
    (fun i hi => Function.update_of_ne hi _ _)]
  simp only [Function.update_self, ite_self]
  omega

end

/-- Several references given away. -/
theorem Backed.takeAll (ls : List LocalId) : ∀ {tok : LocalId → ℕ} {m : Mem}, Backed D base tok m →
    (∀ l ∈ ls, l ∈ D) → (∀ l b, m.val l = some b → ls.count l ≤ tok l) →
    ∃ m', ls.foldlM Mem.take m = some m' ∧ m'.val = m.val ∧ m'.lent = m.lent ∧
      Backed D base (fun l => tok l - ls.count l) m' := by
  induction ls with
  | nil => intro tok m h _ _; exact ⟨m, rfl, rfl, rfl, h⟩
  | cons l ls ih =>
    intro tok m h hD hle
    have hpos : ∀ b, m.val l = some b → 1 ≤ tok l := by
      intro b hb
      have := hle l b hb
      rw [List.count_cons_self] at this
      omega
    obtain ⟨m₁, htake, hval, hlent, hback⟩ := h.take (hD l List.mem_cons_self) hpos
    obtain ⟨m₂, hall, hval', hlent', hback'⟩ := ih hback
      (fun i hi => hD i (List.mem_cons_of_mem l hi)) (by
        intro i b hb
        rw [hval] at hb
        have := hle i b hb
        rcases eq_or_ne i l with rfl | hne
        · rw [List.count_cons_self] at this
          rw [Function.update_self]
          omega
        · rw [List.count_cons_of_ne hne.symm] at this
          rwa [Function.update_of_ne hne])
    refine ⟨m₂, by rw [List.foldlM_cons, htake]; exact hall, hval'.trans hval, hlent'.trans hlent,
      hback'.mono fun i => ?_⟩
    rcases eq_or_ne i l with rfl | hne
    · rw [List.count_cons_self, Function.update_self]
      omega
    · rw [List.count_cons_of_ne hne.symm, Function.update_of_ne hne]

end Backed

/-! ## One instruction -/

section Inst

variable {isDyn : LocalId → Bool} {borrows userFn : String → Bool} {D : Finset LocalId}
  {base : Box → ℕ} {tok : LocalId → ℕ} {m : Mem} {inst : Instruction} {l : LocalId}

theorem isDyn_of_mem_consumed (h : l ∈ consumed isDyn borrows inst) : isDyn l := by
  rcases List.mem_append.mp h with h | h
  · obtain ⟨u, hu, rfl⟩ := List.mem_map.mp h
    exact (of_mem_instUses (List.mem_filter.mp hu).1).1
  · split at h
    · split_ifs at h with hl
      · rw [List.mem_singleton.mp h]
        exact hl
      · simp at h
    · simp at h

theorem isDyn_of_instDef {d : LocalId} {k : DefKind}
    (h : instDef isDyn borrows userFn inst = some (d, k)) : isDyn d := by
  unfold instDef at h
  split at h
  · split_ifs at h with hd
    obtain ⟨rfl, -⟩ := Prod.mk.inj (Option.some.inj h)
    exact hd
  · split_ifs at h with hd
    obtain ⟨rfl, -⟩ := Prod.mk.inj (Option.some.inj h)
    exact hd
  · split_ifs at h with hd
    obtain ⟨rfl, -⟩ := Prod.mk.inj (Option.some.inj h)
    exact hd
  · simp at h

/-- The references the locals have after an instruction. -/
def tokensAfter (isDyn : LocalId → Bool) (borrows userFn : String → Bool) (inst : Instruction)
    (tok : LocalId → ℕ) (l : LocalId) : ℕ :=
  match instDef isDyn borrows userFn inst with
  | some (d, k) =>
    if l = d then (if k = .alias then 0 else 1)
    else tok l - (consumed isDyn borrows inst).count l
  | none => tok l - (consumed isDyn borrows inst).count l

theorem Backed.define (borrows userFn : String → Bool) (hD : ∀ l, l ∈ D ↔ isDyn l)
    (h : Backed D base tok m) (c : Option Box) (inst : Instruction) :
    (∀ i, (instDef isDyn borrows userFn inst).map Prod.fst ≠ some i →
      (define isDyn borrows userFn c inst m).val i = m.val i) ∧
    (∀ d, instDef isDyn borrows userFn inst = some (d, .alias) →
      (define isDyn borrows userFn c inst m).lent = some d) ∧
    Backed D base
      (fun l => match instDef isDyn borrows userFn inst with
        | some (d, k) => if l = d then (if k = .alias then 0 else 1) else tok l
        | none => tok l)
      (define isDyn borrows userFn c inst m) := by
  -- a definition that brings a reference
  have hgive : ∀ {d : LocalId} (c : Option Box), isDyn d →
      (∀ i, some d ≠ some i →
        (({ m with val := Function.update m.val d c, lent := none } : Mem).give d).val i =
          m.val i) ∧
      Backed D base (fun l => if l = d then 1 else tok l)
        (({ m with val := Function.update m.val d c, lent := none } : Mem).give d) := by
    intro d c hd
    obtain ⟨hval, hback⟩ := (h.set ((hD d).mpr hd) c none).give ((hD d).mpr hd)
    refine ⟨fun i hi => ?_, hback.mono fun i => ?_⟩
    · have hne : i ≠ d := fun h => hi (by rw [h])
      rw [hval]
      exact Function.update_of_ne hne _ _
    · rcases eq_or_ne i d with rfl | hne
      · simp
      · simp [hne]
  unfold DynOwn.define
  rcases hdef : instDef isDyn borrows userFn inst with _ | ⟨d, k⟩
  · exact ⟨fun _ _ => rfl, fun _ hd => by simp at hd, h⟩
  · have hd := isDyn_of_instDef hdef
    rcases k with _ | _ | _
    · obtain ⟨hval, hback⟩ := hgive c hd
      exact ⟨hval, fun _ h => by simp at h, by simpa using hback⟩
    · obtain ⟨hval, hback⟩ := hgive (copiedBox isDyn m inst) hd
      exact ⟨hval, fun _ h => by simp at h, by simpa using hback⟩
    · refine ⟨fun i hi => ?_, fun i hi => ?_, ?_⟩
      · have hne : i ≠ d := fun h => hi (by rw [h]; rfl)
        exact Function.update_of_ne hne _ _
      · simp only [Option.some.injEq, Prod.mk.injEq] at hi ⊢
        exact hi.1
      · refine (h.set ((hD d).mpr hd) c (some d)).mono fun i => ?_
        rcases eq_or_ne i d with rfl | hne
        · simp
        · simp [hne]

/-- **One instruction** runs through when what it uses is live and what it takes is there. -/
theorem Backed.exec (hD : ∀ l, l ∈ D ↔ isDyn l) (h : Backed D base tok m) (c : Option Box)
    (hlive : ∀ u ∈ instUses isDyn borrows inst, m.live u.1)
    (hneed : ∀ l b, m.val l = some b → (consumed isDyn borrows inst).count l ≤ tok l) :
    ∃ m', exec isDyn borrows userFn c m inst = some m' ∧
      (∀ i, (instDef isDyn borrows userFn inst).map Prod.fst ≠ some i → m'.val i = m.val i) ∧
      (∀ d, instDef isDyn borrows userFn inst = some (d, .alias) → m'.lent = some d) ∧
      Backed D base (tokensAfter isDyn borrows userFn inst tok) m' := by
  obtain ⟨m₁, hall, hval, -, hback⟩ := h.takeAll (consumed isDyn borrows inst)
    (fun l hl => (hD l).mpr (isDyn_of_mem_consumed hl)) hneed
  have hbump : ∃ m₂, (match retained isDyn inst with
      | some l => m₁.give l
      | none => m₁) = m₂ ∧ m₂.val = m₁.val ∧
      Backed D base (fun l => tok l - (consumed isDyn borrows inst).count l) m₂ := by
    rcases hr : retained isDyn inst with _ | l
    · exact ⟨m₁, rfl, rfl, hback⟩
    · have hl : isDyn l := by
        unfold retained at hr
        split at hr
        · split_ifs at hr with hc
          obtain rfl := Option.some.inj hr
          exact hc.2
        · simp at hr
      obtain ⟨hval', hback'⟩ := hback.give ((hD l).mpr hl)
      refine ⟨m₁.give l, rfl, hval', hback'.mono fun i => ?_⟩
      rcases eq_or_ne i l with rfl | hne
      · simp
      · simp [hne]
  obtain ⟨m₂, hm₂, hval₂, hback₂⟩ := hbump
  obtain ⟨hval₃, hlent, hback₃⟩ := hback₂.define borrows userFn hD c inst
  refine ⟨_, ?_, fun i hi => ?_, hlent, hback₃.mono fun i => ?_⟩
  · have hcheck : ((instUses isDyn borrows inst).all fun u =>
        m.live u.1 || (m.lent = some u.1 && retained isDyn inst = some u.1)) = true := by
      rw [List.all_eq_true]
      intro u hu
      simp [hlive u hu]
    rw [DynOwn.exec, if_pos hcheck, hall, Option.map_some, hm₂]
  · rw [hval₃ i hi, hval₂, hval]
  · unfold tokensAfter
    split <;> rfl

/-! ## Edits -/

/-- A retain into a sink runs through when its local is live or lent. -/
theorem exec_retainInst {sink : LocalId} (c : Option Box) (hsink : isDyn sink = false)
    (hl : isDyn l) (hlive : m.live l ∨ m.lent = some l) :
    exec isDyn borrows userFn c m (retainInst l sink) = some { m.give l with lent := none } := by
  have huses : instUses isDyn borrows (retainInst l sink) = [(l, .borrow)] := by
    simp [retainInst, instUses, rvalueUses, operandUse, localUse, hl]
  have hretained : retained isDyn (retainInst l sink) = some l := by
    simp [retainInst, retained, hl]
  have hconsumed : consumed isDyn borrows (retainInst l sink) = [] := by
    simp only [consumed, huses]
    rfl
  have hdef : instDef isDyn borrows userFn (retainInst l sink) = none := by
    simp [retainInst, instDef, hsink]
  have hcheck : isExceptionCheck (retainInst l sink) = false := by
    simp [retainInst, isExceptionCheck]
  have hok : ([(l, Use.borrow)].all fun u =>
      m.live u.1 || (m.lent = some u.1 && some l = some u.1)) = true := by
    simpa using hlive
  simp only [exec, huses, hretained, if_pos hok, hconsumed, List.foldlM_nil]
  simp [define, hdef, hcheck]

theorem Mem.count_le_give (m : Mem) (l : LocalId) (b : Box) : m.count b ≤ (m.give l).count b := by
  unfold Mem.give
  split
  · exact le_rfl
  · next b' _ =>
    rcases eq_or_ne b b' with rfl | hne
    · simp
    · simp [hne]

/-- Retains of locals that are live. -/
theorem safe_retainInsts (hD : ∀ l, l ∈ D ↔ isDyn l) (ls : List LocalId) :
    ∀ {next : ℕ} {tok : LocalId → ℕ} {m : Mem}, (∀ i ≥ next, isDyn i = false) →
      Backed D base tok m → (∀ l ∈ ls, isDyn l ∧ ∀ b, m.val l = some b → 0 < m.count b) →
      Safe isDyn borrows userFn
        (fun m' => m'.val = m.val ∧ Backed D base (fun l => tok l + ls.count l) m')
        (retainInsts next ls) m := by
  induction ls with
  | nil => intro next tok m _ h _; exact ⟨rfl, h⟩
  | cons l ls ih =>
    intro next tok m hsink h hls c
    obtain ⟨hl, hlive⟩ := hls l List.mem_cons_self
    have hlive' : m.live l := by
      unfold Mem.live
      split
      · rfl
      · next b hb => exact decide_eq_true (hlive b hb)
    refine ⟨_, exec_retainInst c (hsink next le_rfl) hl (.inl hlive'), ?_⟩
    obtain ⟨hval, hback⟩ := h.give ((hD l).mpr hl)
    refine (ih (m := { m.give l with lent := none }) (fun i hi => hsink i (by omega)) hback
      fun i hi => ⟨(hls i (List.mem_cons_of_mem l hi)).1, fun b hb => ?_⟩).mono ?_
    · refine lt_of_lt_of_le ((hls i (List.mem_cons_of_mem l hi)).2 b ?_) (m.count_le_give l b)
      rw [← hval]
      exact hb
    · rintro m' ⟨hval', hback'⟩
      refine ⟨hval'.trans hval, hback'.mono fun i => ?_⟩
      rcases eq_or_ne i l with rfl | hne
      · rw [List.count_cons_self, Function.update_self]
        omega
      · rw [List.count_cons_of_ne hne.symm, Function.update_of_ne hne]

theorem exec_drop (c : Option Box) (hl : isDyn l) :
    exec isDyn borrows userFn c m (.drop l) =
      (m.take l).map fun m' => { m' with lent := none } := by
  have hconsumed : consumed isDyn borrows (.drop l) = [l] := by simp [consumed, instUses, hl]
  simp only [exec, hconsumed, instUses, List.all_nil, if_true, List.foldlM_cons, List.foldlM_nil]
  rcases m.take l with _ | m' <;> simp [retained, define, instDef, isExceptionCheck]

/-- Releases of locals that have the references. -/
theorem safe_drops (hD : ∀ l, l ∈ D ↔ isDyn l) (ls : List LocalId) :
    ∀ {tok : LocalId → ℕ} {m : Mem}, Backed D base tok m → (∀ l ∈ ls, isDyn l) →
      (∀ l b, m.val l = some b → ls.count l ≤ tok l) →
      Safe isDyn borrows userFn
        (fun m' => m'.val = m.val ∧ Backed D base (fun l => tok l - ls.count l) m')
        (ls.map Instruction.drop) m := by
  induction ls with
  | nil => intro tok m h _ _; exact ⟨rfl, h⟩
  | cons l ls ih =>
    intro tok m h hls hle c
    have hl := hls l List.mem_cons_self
    have hpos : ∀ b, m.val l = some b → 1 ≤ tok l := by
      intro b hb
      have := hle l b hb
      rw [List.count_cons_self] at this
      omega
    obtain ⟨m₁, htake, hval, -, hback⟩ := h.take ((hD l).mpr hl) hpos
    refine ⟨{ m₁ with lent := none }, by rw [exec_drop c hl, htake]; rfl, ?_⟩
    refine (ih (m := { m₁ with lent := none }) hback
      (fun i hi => hls i (List.mem_cons_of_mem l hi)) fun i b hb => ?_).mono ?_
    · have := hle i b (hval ▸ hb)
      rcases eq_or_ne i l with rfl | hne
      · rw [List.count_cons_self] at this
        rw [Function.update_self]
        omega
      · rw [List.count_cons_of_ne hne.symm] at this
        rwa [Function.update_of_ne hne]
    · rintro m' ⟨hval', hback'⟩
      refine ⟨hval'.trans hval, hback'.mono fun i => ?_⟩
      rcases eq_or_ne i l with rfl | hne
      · rw [List.count_cons_self, Function.update_self]
        omega
      · rw [List.count_cons_of_ne hne.symm, Function.update_of_ne hne]

end Inst

/-! ## One block

What the edits of a block have to provide, said with a predicate `req` that tells before which
instructions a local must have a reference. A local that was `lent` to the function can be used
without one, but has none to give away. -/

section Block

variable {isDyn : LocalId → Bool} {borrows userFn : String → Bool} {D : Finset LocalId}
  {base : Box → ℕ} {m : Mem} {lent : LocalId → Prop} [DecidablePred lent]

/-- The instruction defines the local. -/
def Defines (isDyn : LocalId → Bool) (borrows userFn : String → Bool) (inst : Instruction)
    (l : LocalId) : Prop :=
  ∃ k, instDef isDyn borrows userFn inst = some (l, k)

/-- The edits provide every reference that the instructions take. -/
structure Covers (isDyn : LocalId → Bool) (borrows userFn : String → Bool) (lent : LocalId → Prop)
    [DecidablePred lent] (req : LocalId → ℕ → Prop) (is : List Instruction)
    (retain : At → List LocalId) (after release : ℕ → List LocalId) : Prop where
  /-- What is used, taken or retained is required. -/
  touched : ∀ {ii inst l}, is[ii]? = some inst →
    ((∃ k, (l, k) ∈ instUses isDyn borrows inst) ∨ l ∈ consumed isDyn borrows inst ∨
      l ∈ retain (.inst ii)) → req l ii
  /-- At most one reference is taken that was not retained before. -/
  enough : ∀ {ii inst} l, is[ii]? = some inst → (consumed isDyn borrows inst).count l ≤
    (retain (.inst ii)).count l + if lent l then 0 else 1
  /-- A local that is required afterwards was required before and lost nothing. -/
  kept : ∀ {ii inst l}, is[ii]? = some inst → ¬ Defines isDyn borrows userFn inst l →
    req l (ii + 1) → req l ii ∧
      (consumed isDyn borrows inst).count l ≤ (retain (.inst ii)).count l
  /-- A local that is released had the reference and is not required afterwards. -/
  released : ∀ {ii inst l}, is[ii]? = some inst → ¬ Defines isDyn borrows userFn inst l →
    l ∈ release ii → req l ii ∧ ¬ lent l ∧ ¬ req l (ii + 1) ∧
      (consumed isDyn borrows inst).count l + (release ii).count l ≤
        (retain (.inst ii)).count l + 1
  /-- A local that is released with its definition is not required afterwards. -/
  defined : ∀ {ii inst l}, is[ii]? = some inst → Defines isDyn borrows userFn inst l →
    (release ii).count l ≤ 1 ∧ (l ∈ release ii → ¬ req l (ii + 1))
  /-- Aliases, and nothing else, are retained after their definition. -/
  aliased : ∀ {ii inst}, is[ii]? = some inst → after ii =
    match instDef isDyn borrows userFn inst with
    | some (d, .alias) => [d]
    | _ => []
  /-- An exception check has nothing to do with `dyn` locals. -/
  check : ∀ {ii inst}, is[ii]? = some inst → isExceptionCheck inst →
    instUses isDyn borrows inst = [] ∧ instDef isDyn borrows userFn inst = none ∧
      after ii = [] ∧ release ii = [] ∧ retain (.inst ii) = []
  term : ∀ {l}, l ∈ retain .term → req l is.length
  dyn : ∀ {l}, (∃ at_, l ∈ retain at_) ∨ (∃ ii, l ∈ release ii) → isDyn l

/-- The local can be used: it has a reference, or its box was lent by the caller. -/
def Usable (base : Box → ℕ) (lent : LocalId → Prop) (tok : LocalId → ℕ) (m : Mem) (l : LocalId) :
    Prop :=
  ∀ b, m.val l = some b → 1 ≤ tok l ∨ (lent l ∧ 1 ≤ base b)

/-- The state before instruction `ii`: the counts are backed, and every local that is required
can be used. -/
def Pos (D : Finset LocalId) (base : Box → ℕ) (lent : LocalId → Prop) (req : LocalId → ℕ → Prop)
    (ii : ℕ) (m : Mem) : Prop :=
  ∃ tok, Backed D base tok m ∧ ∀ l ∈ D, req l ii → Usable base lent tok m l

/-- The state before the terminator of a block with `n` instructions, once the locals of `ls` were
retained for it. -/
def Ended (D : Finset LocalId) (base : Box → ℕ) (lent : LocalId → Prop) (req : LocalId → ℕ → Prop)
    (ls : List LocalId) (n : ℕ) (m : Mem) : Prop :=
  ∃ tok, Backed D base (fun l => tok l + ls.count l) m ∧
    ∀ l ∈ D, req l n → Usable base lent tok m l

variable {tok : LocalId → ℕ}

omit [DecidablePred lent] in
theorem Usable.count_pos {l : LocalId} {b : Box} (h : Usable base lent tok m l)
    (hback : Backed D base tok m) (hl : l ∈ D) (hb : m.val l = some b) : 0 < m.count b := by
  rcases h b hb with htok | ⟨-, hbase⟩
  · exact hback.count_pos hl hb htok
  · have := hback b
    omega

omit [DecidablePred lent] in
theorem Usable.live {l : LocalId} (h : Usable base lent tok m l) (hback : Backed D base tok m)
    (hl : l ∈ D) : m.live l := by
  unfold Mem.live
  split
  · rfl
  · next b hb => exact decide_eq_true (h.count_pos hback hl hb)

variable {req : LocalId → ℕ → Prop} {is : List Instruction} {retain : At → List LocalId}
  {after release : ℕ → List LocalId}

variable {inst : Instruction}

section

variable (h : Covers isDyn borrows userFn lent req is retain after release)

include h

/-- An exception check does nothing. -/
theorem Covers.exec_check {ii : ℕ} (hi : is[ii]? = some inst) (hcheck : isExceptionCheck inst)
    (c : Option Box) (m : Mem)
    : exec isDyn borrows userFn c m inst = some m := by
  obtain ⟨huses, hdef, -⟩ := h.check hi hcheck
  have hshape : ∃ dest args, inst = .assign dest (.call "kryos_exception_check" args) := by
    unfold isExceptionCheck at hcheck
    split at hcheck
    · next dest func args => exact ⟨dest, args, by rw [of_decide_eq_true hcheck]⟩
    · simp at hcheck
  obtain ⟨dest, args, rfl⟩ := hshape
  have hconsumed : consumed isDyn borrows (.assign dest (.call "kryos_exception_check" args)) = [] := by
    simp [consumed, huses]
  have hretained : retained isDyn (.assign dest (.call "kryos_exception_check" args)) = none := by
    unfold retained
    split
    · next h => simp at h; simp [← h.2.1]
    · rfl
  simp [exec, huses, hconsumed, hretained, define, hdef, hcheck]

/-- The state once instruction `ii` has run, before the edits that follow it. -/
theorem Covers.exec_inst (hD : ∀ l, l ∈ D ↔ isDyn l) {ii : ℕ} (hi : is[ii]? = some inst) {m₁ : Mem}
    (hval : m₁.val = m.val)
    (hback : Backed D base (fun l => tok l + (retain (.inst ii)).count l) m₁)
    (huse : ∀ l ∈ D, req l ii → Usable base lent tok m l) (c : Option Box) :
    ∃ m₂, exec isDyn borrows userFn c m₁ inst = some m₂ ∧
      (∀ l, ¬ Defines isDyn borrows userFn inst l → m₂.val l = m.val l) ∧
      (∀ d, instDef isDyn borrows userFn inst = some (d, .alias) → m₂.lent = some d) ∧
      Backed D base (tokensAfter isDyn borrows userFn inst
        fun l => tok l + (retain (.inst ii)).count l) m₂ := by
  have husable : ∀ l ∈ D, req l ii →
      Usable base lent (fun l => tok l + (retain (.inst ii)).count l) m₁ l := by
    intro l hl hreq b hb
    rw [hval] at hb
    refine (huse l hl hreq b hb).imp_left fun htok => ?_
    dsimp only
    omega
  have hlive : ∀ u ∈ instUses isDyn borrows inst, m₁.live u.1 := by
    intro u hu
    have hl : u.1 ∈ D := (hD u.1).mpr (of_mem_instUses hu).1
    exact (husable u.1 hl (h.touched hi (.inl ⟨u.2, hu⟩))).live hback hl
  have hneed : ∀ l b, m₁.val l = some b →
      (consumed isDyn borrows inst).count l ≤ tok l + (retain (.inst ii)).count l := by
    intro l b hb
    by_cases hl : l ∈ consumed isDyn borrows inst
    · have hmem : l ∈ D := (hD l).mpr (isDyn_of_mem_consumed hl)
      have hle := h.enough l hi
      rcases huse l hmem (h.touched hi (.inr (.inl hl))) b (hval ▸ hb) with htok | ⟨hlent, -⟩
      · split_ifs at hle <;> omega
      · rw [if_pos hlent] at hle
        omega
    · rw [List.count_eq_zero_of_not_mem hl]
      exact Nat.zero_le _
  obtain ⟨m₂, hexec, hval₂, hlent, hback₂⟩ := hback.exec hD c hlive hneed
  refine ⟨m₂, hexec, fun l hl => ?_, hlent, hback₂⟩
  rw [hval₂ l ?_, hval]
  rintro hsome
  obtain ⟨⟨d, k⟩, hdk, rfl⟩ := Option.map_eq_some_iff.mp hsome
  exact hl ⟨k, hdk⟩

/-- The retain that follows the definition of an alias. -/
theorem Covers.safe_after (hD : ∀ l, l ∈ D ↔ isDyn l) {ii next : ℕ}
    (hsink : ∀ i ≥ next, isDyn i = false) (hi : is[ii]? = some inst)
    (hlent : ∀ d, instDef isDyn borrows userFn inst = some (d, .alias) → m.lent = some d)
    (hback : Backed D base (tokensAfter isDyn borrows userFn inst tok) m) :
    Safe isDyn borrows userFn
      (fun m' => m'.val = m.val ∧ ∃ tok', Backed D base tok' m' ∧
        (∀ l, Defines isDyn borrows userFn inst l → tok' l = 1) ∧
        ∀ l, ¬ Defines isDyn borrows userFn inst l →
          tok' l = tok l - (consumed isDyn borrows inst).count l)
      (retainInsts next (after ii)) m := by
  rw [h.aliased hi]
  rcases hdef : instDef isDyn borrows userFn inst with _ | ⟨d, k⟩
  · refine ⟨rfl, _, hback, ?_, fun l _ => ?_⟩
    · rintro l ⟨k, hk⟩
      rw [hdef] at hk
      simp at hk
    · simp [tokensAfter, hdef]
  · -- any other local than `d` is not defined
    have hother : ∀ {l}, ¬ Defines isDyn borrows userFn inst l → l ≠ d := by
      rintro l hl rfl
      exact hl ⟨k, hdef⟩
    have hself : ∀ {l}, Defines isDyn borrows userFn inst l → l = d := by
      rintro l ⟨k', hk'⟩
      rw [hdef] at hk'
      simp only [Option.some.injEq, Prod.mk.injEq] at hk'
      exact hk'.1.symm
    by_cases hk : k = .alias
    · subst hk
      intro c
      have hd : isDyn d := isDyn_of_instDef hdef
      refine ⟨_, exec_retainInst c (hsink next le_rfl) hd (.inr (hlent d hdef)), ?_⟩
      obtain ⟨hval, hback'⟩ := hback.give ((hD d).mpr hd)
      refine ⟨hval, _, hback', fun l hl => ?_, fun l hl => ?_⟩
      · obtain rfl := hself hl
        simp [tokensAfter, hdef]
      · simp [tokensAfter, hdef, hother hl]
    · have hnil : (match (some (d, k) : Option (LocalId × DefKind)) with
          | some (d, .alias) => [d]
          | _ => []) = [] := by
        rcases k with _ | _ | _
        · rfl
        · rfl
        · exact absurd rfl hk
      rw [hnil]
      refine ⟨rfl, _, hback, fun l hl => ?_, fun l hl => ?_⟩
      · obtain rfl := hself hl
        simp [tokensAfter, hdef, hk]
      · simp [tokensAfter, hdef, hother hl]

/-- **One instruction with its edits** leads from one position to the next. An exception check may
stand between the instruction and the edits that follow it. -/
theorem Covers.safe_segment (hD : ∀ l, l ∈ D ↔ isDyn l) {ii next next' : ℕ}
    (hsink : ∀ i ≥ next, isDyn i = false) (hsink' : ∀ i ≥ next', isDyn i = false)
    (hi : is[ii]? = some inst) (mid : List Instruction)
    (hmid : ∀ i ∈ mid, ∀ c m, exec isDyn borrows userFn c m i = some m)
    (hpos : Pos D base lent req ii m) :
    Safe isDyn borrows userFn (Pos D base lent req (ii + 1))
      (retainInsts next (retain (.inst ii)) ++ inst :: (mid ++
        (retainInsts next' (after ii) ++ (release ii).map Instruction.drop))) m := by
  obtain ⟨tok, hback, huse⟩ := hpos
  rw [safe_append]
  refine (safe_retainInsts hD _ hsink hback fun l hl => ?_).mono ?_
  · have hl' : isDyn l := h.dyn (.inl ⟨_, hl⟩)
    refine ⟨hl', fun b hb => ?_⟩
    exact (huse l ((hD l).mpr hl') (h.touched hi (.inr (.inr hl)))).count_pos hback
      ((hD l).mpr hl') hb
  rintro m₁ ⟨hval₁, hback₁⟩ c
  obtain ⟨m₂, hexec, hval₂, hlent₂, hback₂⟩ := h.exec_inst hD hi hval₁ hback₁ huse c
  refine ⟨m₂, hexec, ?_⟩
  have hskip : ∀ {mid : List Instruction}, (∀ i ∈ mid, ∀ c m, exec isDyn borrows userFn c m i = some m) →
      ∀ {Q : Mem → Prop} {rest : List Instruction}, Safe isDyn borrows userFn Q rest m₂ →
      Safe isDyn borrows userFn Q (mid ++ rest) m₂ := by
    intro mid hmid Q rest hrest
    induction mid with
    | nil => exact hrest
    | cons i mid ih =>
      exact fun c => ⟨m₂, hmid i List.mem_cons_self c m₂,
        ih fun j hj => hmid j (List.mem_cons_of_mem i hj)⟩
  refine hskip hmid ?_
  rw [safe_append]
  refine (h.safe_after hD hsink' hi hlent₂ hback₂).mono ?_
  rintro m₃ ⟨hval₃, tok₃, hback₃, hdef₃, hother₃⟩
  have hdyn : ∀ l ∈ release ii, isDyn l := fun l hl => h.dyn (.inr ⟨ii, hl⟩)
  refine (safe_drops hD (release ii) hback₃ hdyn fun l b hb => ?_).mono ?_
  · by_cases hl : l ∈ release ii
    · by_cases hd : Defines isDyn borrows userFn inst l
      · rw [hdef₃ l hd]
        exact (h.defined hi hd).1
      · obtain ⟨hreq, hnot, -, hle⟩ := h.released hi hd hl
        have hb' : m.val l = some b := by rw [← hval₂ l hd, ← hval₃, hb]
        rcases huse l ((hD l).mpr (hdyn l hl)) hreq b hb' with htok | ⟨hlent, -⟩
        · rw [hother₃ l hd]
          omega
        · exact absurd hlent hnot
    · rw [List.count_eq_zero_of_not_mem hl]
      exact Nat.zero_le _
  · rintro m₄ ⟨hval₄, hback₄⟩
    refine ⟨_, hback₄, fun l hl hreq b hb => ?_⟩
    rw [hval₄, hval₃] at hb
    by_cases hd : Defines isDyn borrows userFn inst l
    · have hnot : l ∉ release ii := fun hmem => (h.defined hi hd).2 hmem hreq
      left
      rw [hdef₃ l hd, List.count_eq_zero_of_not_mem hnot]
    · obtain ⟨hreq', hle⟩ := h.kept hi hd hreq
      have hnot : l ∉ release ii := fun hmem => (h.released hi hd hmem).2.2.1 hreq
      rw [hval₂ l hd] at hb
      refine (huse l hl hreq' b hb).imp_left fun htok => ?_
      rw [hother₃ l hd, List.count_eq_zero_of_not_mem hnot]
      omega

/-- The retains before the terminator. -/
theorem Covers.safe_term (hD : ∀ l, l ∈ D ↔ isDyn l) {ii next : ℕ} (hdrop : is.drop ii = [])
    (hii : ii ≤ is.length) (hsink : ∀ i ≥ next, isDyn i = false) (hpos : Pos D base lent req ii m) :
    Safe isDyn borrows userFn (Ended D base lent req (retain .term) is.length)
      (materialize retain after release next ii []).1 m := by
  obtain rfl : ii = is.length := le_antisymm hii (List.drop_eq_nil_iff.mp hdrop)
  obtain ⟨tok, hback, huse⟩ := hpos
  refine (safe_retainInsts hD _ hsink hback fun l hl => ?_).mono ?_
  · have hl' : isDyn l := h.dyn (.inl ⟨_, hl⟩)
    exact ⟨hl', fun b hb => (huse l ((hD l).mpr hl') (h.term hl)).count_pos hback
      ((hD l).mpr hl') hb⟩
  · rintro m' ⟨hval, hback'⟩
    exact ⟨tok, hback', fun l hl hreq b hb => huse l hl hreq b (hval ▸ hb)⟩

/-- A position passes an exception check. -/
theorem Covers.pos_check {ii : ℕ} (hi : is[ii]? = some inst) (hcheck : isExceptionCheck inst)
    (hpos : Pos D base lent req ii m) : Pos D base lent req (ii + 1) m := by
  obtain ⟨tok, hback, huse⟩ := hpos
  refine ⟨tok, hback, fun l hl hreq => huse l hl (h.kept hi ?_ hreq).1⟩
  rintro ⟨k, hk⟩
  rw [(h.check hi hcheck).2.1] at hk
  simp at hk

/-- **A block with its edits** runs through. -/
theorem Covers.safe_materialize (hD : ∀ l, l ∈ D ↔ isDyn l) (n : ℕ) :
    ∀ {rest : List Instruction} {ii next : ℕ} {m : Mem},
      rest.length ≤ n → is.drop ii = rest → ii ≤ is.length → (∀ i ≥ next, isDyn i = false) →
      Pos D base lent req ii m →
      Safe isDyn borrows userFn (Ended D base lent req (retain .term) is.length)
        (materialize retain after release next ii rest).1 m := by
  induction n with
  | zero =>
    intro rest ii next m hlen hdrop hii hsink hpos
    obtain rfl : rest = [] := List.length_eq_zero_iff.mp (by omega)
    exact h.safe_term hD hdrop hii hsink hpos
  | succ n ih =>
    intro rest ii next m hlen hdrop hii hsink hpos
    rcases rest with _ | ⟨inst, rest⟩
    · exact h.safe_term hD hdrop hii hsink hpos
    · have hi : is[ii]? = some inst := by
        rw [← List.head?_drop, hdrop]
        rfl
      have hlt : ii < is.length := (List.getElem?_eq_some_iff.mp hi).1
      have hdrop' : is.drop (ii + 1) = rest := by
        rw [← List.tail_drop, hdrop]
        rfl
      rw [List.length_cons] at hlen
      have hsink₁ : ∀ i ≥ next + (retain (.inst ii)).length, isDyn i = false :=
        fun i hi => hsink i (by omega)
      have hsink₂ : ∀ i ≥ next + (retain (.inst ii)).length + (after ii).length, isDyn i = false :=
        fun i hi => hsink i (by omega)
      rw [materialize.eq_def]
      dsimp only
      split_ifs with hnone
      · -- nothing follows the instruction
        have hseg := h.safe_segment hD hsink hsink hi [] (by simp) hpos
        rw [List.isEmpty_iff.mp hnone.1, List.isEmpty_iff.mp hnone.2] at hseg
        rw [List.append_cons, safe_append]
        refine Safe.mono (fun m' hm' => ?_) hseg
        exact ih (by omega) hdrop' hlt hsink₁ hm'
      · rcases rest with _ | ⟨check, rest'⟩
        · have hseg := h.safe_segment hD hsink hsink₁ hi [] (by simp) hpos
          dsimp only
          rw [← List.cons_append, ← List.append_assoc, safe_append]
          refine Safe.mono (fun m' hm' => ?_) hseg
          exact ih (Nat.zero_le n) hdrop' hlt hsink₂ hm'
        · dsimp only
          split_ifs with hcheck
          · have hc : is[ii + 1]? = some check := by
              rw [← List.head?_drop, hdrop']
              rfl
            have hlt' : ii + 1 < is.length := (List.getElem?_eq_some_iff.mp hc).1
            have hseg := h.safe_segment hD hsink hsink₁ hi [check]
              (by
                intro i hmem c m
                rw [List.mem_singleton.mp hmem]
                exact h.exec_check hc hcheck c m) hpos
            have hdrop'' : is.drop (ii + 1 + 1) = rest' := by
              rw [← List.tail_drop, hdrop']
              rfl
            rw [List.length_cons] at hlen
            rw [← List.cons_append, ← List.cons_append, ← List.append_assoc, safe_append]
            refine Safe.mono (fun m' hm' => ?_) hseg
            exact ih (by omega) hdrop'' hlt' hsink₂ (h.pos_check hc hcheck hm')
          · have hseg := h.safe_segment hD hsink hsink₁ hi [] (by simp) hpos
            rw [← List.cons_append, ← List.append_assoc, safe_append]
            refine Safe.mono (fun m' hm' => ?_) hseg
            exact ih (by omega) hdrop' hlt hsink₂ hm'

end

end Block

end Kryos.DynOwn
