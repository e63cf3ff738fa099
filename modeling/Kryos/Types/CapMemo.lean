import Kryos.Lib.Tarjan
import Kryos.Lib.Worklist
import Kryos.Types.CapRefs

/-!
# Resolution as it is computed

The engine resolves a variable by a depth-first walk, takes the variables on a cycle from Tarjan's
algorithm, and keeps both results until a binding changes. `Memo` is the engine with its two caches.
The caches never show: `Memo.resolveCapRow` answers what `CapEngine.resolveCapRow` answers, after
any calls (`Memo.Sound`).
-/

namespace Kryos.Types

open Relation

namespace CapEngine

variable {σ : CapEngine}

/-- The variable `b` is in the row that `a` is bound to. -/
def Edge (σ : CapEngine) (a b : CapVarId) : Prop := b ∈ σ.succs a

/-- The successors of a variable, in the order of the row. -/
def succList (σ : CapEngine) (v : CapVarId) : List CapVarId := ascending (σ.succs v)

/-- The variables that are bound or that a binding mentions. -/
def graphVars (σ : CapEngine) : Finset CapVarId :=
  σ.capSubstitutions.keys.toFinset ∪ σ.capSubstitutions.keys.toFinset.biUnion σ.succs

/-- The variables on a cycle of the substitution. -/
def capCycleNodes (σ : CapEngine) : Finset CapVarId :=
  Tarjan.cycleNodes σ.succList (∑ v ∈ σ.graphVars, Tarjan.weight σ.succList v)
    σ.capSubstitutions.keys

/-- What the walk from a variable has collected. -/
structure Walk where
  bits : CapBits
  opened : List CapVarId
  visited : List CapVarId

/-- One variable of the walk. An unknown row ends it; here the walk goes on, without a result. -/
def walkVisit (σ : CapEngine) : Option Walk → CapVarId → Option Walk
  | none, _ => none
  | some walk, cur =>
    let walk := { walk with visited := walk.visited ++ [cur] }
    match σ.binding cur with
    | none => some { walk with opened := walk.opened ++ [cur] }
    | some .unknown => none
    | some (.resolved concrete _) => some { walk with bits := walk.bits ∪ concrete }

/-- A variable is visited once and pushes its successors. -/
def walkFuel (σ : CapEngine) (v : CapVarId) : ℕ :=
  (insert v σ.graphVars).card * (σ.graphVars.card + 1) + 1

/-- The walk from `v`, or nothing if it meets an unknown row. -/
def walkFrom (σ : CapEngine) (v : CapVarId) : Option Walk :=
  (Worklist.loop id (fun cur => (σ.succList cur).reverse) σ.walkVisit (σ.walkFuel v) [v] []
    (some ⟨∅, [], []⟩)).join

def Walk.row (walk : Walk) (cycles : Finset CapVarId) : CapRow :=
  .resolved walk.bits (walk.opened.toFinset ∪ cycles.filter (· ∈ walk.visited))

end CapEngine

/-- The engine and what it remembers. -/
structure Memo where
  engine : CapEngine
  capResolveCache : VarMap CapRow
  capCycleCache : Option (Finset CapVarId)

namespace Memo

/-- An engine that remembers nothing. -/
def fresh (σ : CapEngine) : Memo := ⟨σ, ∅, none⟩

def capCycleNodes (m : Memo) : Finset CapVarId × Memo :=
  match m.capCycleCache with
  | some hit => (hit, m)
  | none => (m.engine.capCycleNodes, { m with capCycleCache := some m.engine.capCycleNodes })

def remember (m : Memo) (v : CapVarId) (row : CapRow) : CapRow × Memo :=
  (row, { m with capResolveCache := m.capResolveCache.insert v row })

def resolveCapVar (m : Memo) (v : CapVarId) : CapRow × Memo :=
  match m.capResolveCache.lookup v with
  | some hit => (hit, m)
  | none =>
    match m.engine.walkFrom v with
    | none => m.remember v .unknown
    | some walk => m.capCycleNodes.2.remember v (walk.row m.capCycleNodes.1)

def resolveCapRow (m : Memo) : CapRow → CapRow × Memo
  | .unknown => (.unknown, m)
  | .resolved concrete vars =>
    (ascending vars).foldl
      (fun acc v => (acc.1 ⊔ (acc.2.resolveCapVar v).1, (acc.2.resolveCapVar v).2))
      (.closed concrete, m)

/-- Each binding that changes something forgets everything, in the same place as it advances the
epoch. -/
def bindCapVar (m : Memo) (id : CapVarId) (row : CapRow) : Memo :=
  if (m.engine.bindCapVar id row).capEpoch = m.engine.capEpoch then
    { m with engine := m.engine.bindCapVar id row }
  else fresh (m.engine.bindCapVar id row)

inductive Call where
  | bind (v : CapVarId) (row : CapRow)
  | resolve (row : CapRow)

def call (m : Memo) : Call → Memo
  | .bind v row => m.bindCapVar v row
  | .resolve row => (m.resolveCapRow row).2

def run (m : Memo) (calls : List Call) : Memo := calls.foldl call m

end Memo

variable {v : CapVarId}

namespace CapEngine

variable {σ : CapEngine}

/-! ### The walk and the cycles -/

theorem mem_succList {w : CapVarId} : w ∈ σ.succList v ↔ w ∈ σ.succs v :=
  mem_ascending

theorem mem_keys_iff : v ∈ σ.capSubstitutions.keys ↔ σ.isBound v := by
  rw [isBound, binding, AList.lookup_isSome]
  rfl

theorem succs_eq_empty (h : v ∉ σ.capSubstitutions.keys) : σ.succs v = ∅ := by
  rw [mem_keys_iff, isBound, Option.isSome_iff_ne_none, not_not] at h
  rw [succs, h]

theorem succs_subset_graphVars (v : CapVarId) : σ.succs v ⊆ σ.graphVars := by
  intro w hw
  by_cases hv : v ∈ σ.capSubstitutions.keys
  · exact Finset.mem_union_right _ (Finset.mem_biUnion.mpr ⟨v, List.mem_toFinset.mpr hv, hw⟩)
  · rw [succs_eq_empty hv] at hw
    cases hw

/-- The search with the fuel of the engine is complete. -/
theorem mem_reachable_iff {start : Finset CapVarId} {w : CapVarId} :
    w ∈ σ.reachable ∅ start ↔ ∃ v ∈ start, ReflTransGen σ.Edge v w := by
  have hsucc : (fun v => if v ∈ (∅ : Finset CapVarId) then ∅ else σ.succs v) = σ.succs := by
    funext v
    exact if_neg (Finset.notMem_empty v)
  have hdom : ∀ v, v ∉ σ.capSubstitutions.keys.toFinset → σ.succs v = ∅ := fun v hv =>
    succs_eq_empty fun hk => hv (List.mem_toFinset.mpr hk)
  rw [reachable, hsucc, Reach.mem_reach_iff hdom (List.toFinset_card_le _)]
  rfl

theorem onCycle_iff : σ.onCycle v ↔ TransGen σ.Edge v v := by
  rw [onCycle, decide_eq_true_eq, mem_reachable_iff, TransGen.head'_iff]
  rfl

/-- The search for components finds the variables on a cycle. -/
theorem mem_capCycleNodes : v ∈ σ.capCycleNodes ↔ σ.onCycle v := by
  have hedge : Tarjan.Edge σ.succList = σ.Edge := by
    funext a b
    exact propext mem_succList
  rw [capCycleNodes, Tarjan.mem_cycleNodes (U := σ.graphVars) _ le_rfl, onCycle_iff,
    Tarjan.OnCycle, hedge]
  · exact fun r hr => Finset.mem_union_left _ (List.mem_toFinset.mpr hr)
  · intro v hv
    by_contra hk
    obtain ⟨w, hw⟩ := List.exists_mem_of_ne_nil _ hv
    rw [mem_succList, succs_eq_empty hk] at hw
    cases hw
  · exact fun v _ w hw => succs_subset_graphVars v (mem_succList.mp hw)

/-- The bits that a variable is bound to. -/
def ownBits (σ : CapEngine) (v : CapVarId) : CapBits :=
  ((σ.binding v).getD .empty).concreteBits

theorem foldl_walkVisit_none (l : List CapVarId) : l.foldl σ.walkVisit none = none := by
  induction l with
  | nil => rfl
  | cons v l ih => exact ih

/-- What the walk over a list of variables collects. -/
theorem foldl_walkVisit (l : List CapVarId) (walk : Walk) :
    l.foldl σ.walkVisit (some walk) =
      if ∃ v ∈ l, σ.binding v = some .unknown then none
      else some ⟨walk.bits ∪ l.toFinset.sup σ.ownBits,
        walk.opened ++ l.filter fun v => !σ.isBound v, walk.visited ++ l⟩ := by
  induction l generalizing walk with
  | nil => simp
  | cons v l ih =>
    rw [List.foldl_cons, walkVisit]
    cases hb : σ.binding v with
    | none =>
      simp [ih, hb, ownBits, isBound, CapRow.empty, CapRow.closed, CapRow.concreteBits]
    | some row =>
      cases row with
      | unknown => simp [hb, foldl_walkVisit_none]
      | resolved c vs =>
        simp [ih, hb, ownBits, isBound, CapRow.concreteBits, Finset.union_assoc]

/-- The walk visits the variables that can be reached. -/
theorem exists_walkFrom_eq (σ : CapEngine) (v : CapVarId) :
    ∃ visited : List CapVarId, visited.toFinset = σ.reachable ∅ {v} ∧
      σ.walkFrom v = visited.foldl σ.walkVisit (some ⟨∅, [], []⟩) := by
  obtain ⟨out, hout⟩ : ∃ out, Worklist.loop id (fun cur => (σ.succList cur).reverse) σ.walkVisit
      (σ.walkFuel v) [v] [] (some ⟨∅, [], []⟩) = some out := by
    refine Worklist.loop_isSome (P := (· ∈ insert v σ.graphVars)) (fun _ ha => ha)
      (fun a _ => ?_) (fun a _ b hb => ?_) (fun a ha => ?_)
      (Nat.add_le_add_right (Nat.mul_le_mul_right _ (Finset.card_filter_le _ _)) 1)
    · have hnodup : (σ.succList a).Nodup := (List.nodup_range).filter _
      rw [List.length_reverse, ← List.toFinset_card_of_nodup hnodup]
      exact Finset.card_le_card fun w hw =>
        succs_subset_graphVars a (mem_succList.mp (List.mem_toFinset.mp hw))
    · exact Finset.mem_insert_of_mem
        (succs_subset_graphVars a (mem_succList.mp (List.mem_reverse.mp hb)))
    · rw [List.mem_singleton.mp ha]
      exact Finset.mem_insert_self _ _
  obtain ⟨visited, hvisited, hreach, hwork, hnext⟩ := Worklist.loop_spec hout
  simp only [List.mem_singleton, exists_eq_left, forall_eq, List.not_mem_nil, false_or, id_eq,
    exists_eq_right] at hreach hwork hnext
  have hedge : (fun a b => b ∈ (σ.succList a).reverse) = σ.Edge := by
    funext a b
    rw [List.mem_reverse, mem_succList]
    rfl
  rw [hedge] at hreach
  refine ⟨visited, ?_, by rw [walkFrom, hout, Option.join_some, hvisited]⟩
  ext w
  rw [List.mem_toFinset, mem_reachable_iff]
  simp only [Finset.mem_singleton, exists_eq_left]
  refine ⟨hreach w, fun hw => ?_⟩
  induction hw with
  | refl => exact hwork
  | tail _ hstep ih => exact hnext _ ih _ (List.mem_reverse.mpr (mem_succList.mpr hstep))

/-- What a walk answers, with the variables on a cycle. -/
def walkRow (σ : CapEngine) (v : CapVarId) : CapRow :=
  match σ.walkFrom v with
  | none => .unknown
  | some walk => walk.row σ.capCycleNodes

theorem walkRow_eq (σ : CapEngine) (v : CapVarId) : σ.walkRow v = σ.resolveCapVar v := by
  obtain ⟨visited, hset, hwalk⟩ := σ.exists_walkFrom_eq v
  have hmem : ∀ u, u ∈ visited ↔ u ∈ σ.reachable ∅ {v} := fun u => by
    rw [← hset, List.mem_toFinset]
  simp only [foldl_walkVisit, hmem, hset, Finset.empty_union, List.nil_append] at hwalk
  rw [walkRow, resolveCapVar, collect, hwalk]
  simp only [Finset.notMem_empty, not_false_eq_true, true_and, false_or, Finset.sdiff_empty]
  by_cases hunknown : ∃ u ∈ σ.reachable ∅ {v}, σ.binding u = some .unknown
  · simp only [if_pos hunknown]
  · simp only [if_neg hunknown, Walk.row]
    refine congrArg (CapRow.resolved _) ?_
    ext u
    simp only [Finset.mem_union, List.mem_toFinset, List.mem_filter, Finset.mem_filter,
      mem_capCycleNodes, hmem]
    tauto

end CapEngine

namespace Memo

variable {m : Memo}

/-! ### The caches never show -/

/-- What is remembered is what would be computed. -/
structure Sound (m : Memo) : Prop where
  rows : ∀ v row, m.capResolveCache.lookup v = some row → row = m.engine.resolveCapVar v
  cycles : ∀ cycles, m.capCycleCache = some cycles → cycles = m.engine.capCycleNodes

theorem sound_fresh (σ : CapEngine) : Sound (fresh σ) :=
  ⟨fun v row h => by simp [fresh] at h, nofun⟩

theorem Sound.capCycleNodes (h : Sound m) :
    m.capCycleNodes.1 = m.engine.capCycleNodes ∧ Sound m.capCycleNodes.2 ∧
      m.capCycleNodes.2.engine = m.engine := by
  rw [Memo.capCycleNodes]
  split
  · rename_i hit hhit
    exact ⟨h.cycles hit hhit, h, rfl⟩
  · exact ⟨rfl, ⟨h.rows, fun cycles hc => (Option.some.inj hc).symm⟩, rfl⟩

theorem Sound.remember (h : Sound m) {row : CapRow} (hrow : row = m.engine.resolveCapVar v) :
    Sound (m.remember v row).2 := by
  refine ⟨fun u r hr => ?_, h.cycles⟩
  have hr : (m.capResolveCache.insert v row).lookup u = some r := hr
  show r = m.engine.resolveCapVar u
  by_cases hu : u = v
  · subst hu
    rw [AList.lookup_insert] at hr
    rw [← Option.some.inj hr, hrow]
  · rw [AList.lookup_insert_ne hu] at hr
    exact h.rows u r hr

theorem Sound.resolveCapVar (h : Sound m) (v : CapVarId) :
    (m.resolveCapVar v).1 = m.engine.resolveCapVar v ∧ Sound (m.resolveCapVar v).2 ∧
      (m.resolveCapVar v).2.engine = m.engine := by
  have hwalk := m.engine.walkRow_eq v
  rw [CapEngine.walkRow] at hwalk
  rw [Memo.resolveCapVar]
  split
  · rename_i hit hhit
    exact ⟨h.rows v hit hhit, h, rfl⟩
  · split
    · rename_i hnone
      rw [hnone] at hwalk
      exact ⟨hwalk, h.remember hwalk, rfl⟩
    · rename_i walk hsome
      rw [hsome] at hwalk
      obtain ⟨hcycles, hsound, hengine⟩ := h.capCycleNodes
      rw [hcycles]
      exact ⟨hwalk, hsound.remember (hwalk.trans (by rw [hengine])), hengine⟩

theorem Sound.resolveCapRow (h : Sound m) (row : CapRow) :
    (m.resolveCapRow row).1 = m.engine.resolveCapRow row ∧ Sound (m.resolveCapRow row).2 ∧
      (m.resolveCapRow row).2.engine = m.engine := by
  cases row with
  | unknown => exact ⟨rfl, h, rfl⟩
  | resolved concrete vars =>
    -- Over any list of variables, the answers are joined and the engine stays.
    have hfold : ∀ (l : List CapVarId) (acc : CapRow × Memo), Sound acc.2 →
        acc.2.engine = m.engine →
        (l.foldl (fun acc v => (acc.1 ⊔ (acc.2.resolveCapVar v).1, (acc.2.resolveCapVar v).2))
            acc).1 = acc.1 ⊔ l.toFinset.sup m.engine.resolveCapVar ∧
          Sound (l.foldl (fun acc v => (acc.1 ⊔ (acc.2.resolveCapVar v).1,
            (acc.2.resolveCapVar v).2)) acc).2 ∧
          (l.foldl (fun acc v => (acc.1 ⊔ (acc.2.resolveCapVar v).1,
            (acc.2.resolveCapVar v).2)) acc).2.engine = m.engine := by
      intro l
      induction l with
      | nil =>
        intro acc hs he
        exact ⟨by rw [List.foldl_nil, List.toFinset_nil, Finset.sup_empty, sup_bot_eq], hs, he⟩
      | cons v l ih =>
        intro acc hs he
        obtain ⟨hrow, hs', he'⟩ := hs.resolveCapVar v
        obtain ⟨hrest, hs'', he''⟩ :=
          ih (acc.1 ⊔ (acc.2.resolveCapVar v).1, (acc.2.resolveCapVar v).2) hs' (he'.trans he)
        refine ⟨?_, hs'', he''⟩
        rw [List.foldl_cons, hrest, hrow, he, List.toFinset_cons, Finset.sup_insert, sup_assoc]
    obtain ⟨hrow, hs, he⟩ := hfold (ascending vars) (.closed concrete, m) h rfl
    have hset : (ascending vars).toFinset = vars := by
      ext v
      rw [List.mem_toFinset, mem_ascending]
    rw [hset] at hrow
    exact ⟨hrow, hs, he⟩

theorem Sound.bindCapVar (h : Sound m) (id : CapVarId) (row : CapRow) :
    Sound (m.bindCapVar id row) := by
  rw [Memo.bindCapVar]
  split
  · rename_i hidle
    have halike := (CapEngine.bindCapVar_grows m.engine id row).toWidens.alike hidle
    refine ⟨fun v r hr => ?_, fun cycles hc => ?_⟩
    · rw [h.rows v r hr]
      show _ = (m.engine.bindCapVar id row).resolveCapVar v
      rw [CapEngine.resolveCapVar, CapEngine.resolveCapVar, halike.reachable, halike.collect]
    · rw [h.cycles cycles hc]
      ext v
      show _ ↔ v ∈ (m.engine.bindCapVar id row).capCycleNodes
      rw [CapEngine.mem_capCycleNodes, CapEngine.mem_capCycleNodes, CapEngine.onCycle,
        CapEngine.onCycle, halike.succs, halike.reachable]
  · exact sound_fresh _

theorem Sound.run (h : Sound m) (calls : List Call) : Sound (m.run calls) := by
  refine List.foldlRecOn (motive := Sound) calls call h fun m hm c _ => ?_
  cases c with
  | bind v row => exact hm.bindCapVar v row
  | resolve row => exact (hm.resolveCapRow row).2.1

end Memo

end Kryos.Types
