import Mathlib.Data.List.Forall2
import Kryos.Types.RowOutline

/-!
# The rows charge every call that is visited

The walk of the checker does to the stack what the outline of the body says: it adds the rows of
the visited calls to the row on top, and it files the visited `deny!` blocks with the rows of their
own visited calls (`Walks`). So the rows contain every call that can be evaluated exactly if the
calls in the positions that the walk skips add nothing.
-/

namespace Kryos.Types

open Kryos.Ast Kryos.Capabilities Outline

variable {o : Typing}

variable {ps : List Outline}

namespace Outline

/-- The `deny!` blocks that the walk files. -/
def filed (o : Typing) : Outline → List FiledDeny
  | skip | op | leave _ | call _ | skipped _ => []
  | seq p q | choice p q | loop p q | attempt p q => p.filed o ++ q.filed o
  | spawn p | lambda p => p.filed o
  | deny d p =>
    p.filed o ++ [⟨d, p.visitedRow,
      deniedCapsUsed d.denied (o.resolveAt d.span p.visitedRow).concreteBits⟩]

/-- What stands under a `deny!` block is the outline of the body of the block. -/
def Faithful (o : Typing) : Outline → Prop
  | skip | op | leave _ | call _ => True
  | seq p q | choice p q | loop p q | attempt p q => p.Faithful o ∧ q.Faithful o
  | spawn p | lambda p | skipped p => p.Faithful o
  | deny d p => p = blockOutline o d.body ∧ p.Faithful o

theorem Faithful.mem_filed_iff {p : Outline} (h : p.Faithful o) {x : FiledDeny} :
    x ∈ p.filed o ↔ x.block ∈ p.visitedDenies ∧
      x.row = (blockOutline o x.block.body).visitedRow ∧
      x.reported = deniedCapsUsed x.block.denied
        (o.resolveAt x.block.span (blockOutline o x.block.body).visitedRow).concreteBits := by
  induction p with
  | skip | op | leave _ | call _ | skipped _ _ => simp [filed, visitedDenies]
  | seq p q ihp ihq | choice p q ihp ihq | loop p q ihp ihq | attempt p q ihp ihq =>
    rw [filed, visitedDenies, List.mem_append, List.mem_append, ihp h.1, ihq h.2, or_and_right]
  | spawn p ih | lambda p ih =>
    rw [filed, visitedDenies, ih h]
  | deny d p ih =>
    obtain ⟨rfl, h⟩ := h
    rw [filed, visitedDenies, List.mem_append, List.mem_singleton, List.mem_cons, ih h,
      or_and_right, or_comm]
    refine or_congr_left ?_
    constructor
    · rintro rfl
      exact ⟨rfl, rfl, rfl⟩
    · rintro ⟨hb, hr, hu⟩
      obtain ⟨block, row, reported⟩ := x
      obtain rfl : block = d := hb
      rw [FiledDeny.mk.injEq]
      exact ⟨rfl, hr, hu⟩

theorem visitedRow_seqAll {row : CapRow} :
    (seqAll ps).visitedRow ≤ row ↔ ∀ p ∈ ps, p.visitedRow ≤ row := by
  induction ps with
  | nil => simp [seqAll, visitedRow]
  | cons p ps ih =>
    rw [List.forall_mem_cons, ← ih]
    exact sup_le_iff

theorem mem_filed_seqAll {x : FiledDeny} : x ∈ (seqAll ps).filed o ↔ ∃ p ∈ ps, x ∈ p.filed o := by
  induction ps with
  | nil => simp [seqAll, filed]
  | cons p ps ih =>
    rw [List.exists_mem_cons_iff, ← ih]
    exact List.mem_append

theorem faithful_seqAll : (seqAll ps).Faithful o ↔ ∀ p ∈ ps, p.Faithful o := by
  induction ps with
  | nil => simp [seqAll, Faithful]
  | cons p ps ih =>
    rw [List.forall_mem_cons, ← ih]
    exact Iff.rfl

theorem visitedRow_args {idx : List ℕ} {row : CapRow} :
    (args idx ps).visitedRow ≤ row ↔ ∀ i p, ps[i]? = some p → i ∈ idx → p.visitedRow ≤ row := by
  rw [args, visitedRow_seqAll, List.forall_mem_map]
  constructor
  · intro h i p hp hi
    simpa [hi] using h (p, i) (List.mem_zipIdx_iff_getElem?.mpr hp)
  · rintro h ⟨p, i⟩ hmem
    dsimp only
    split
    · exact h i p (List.mem_zipIdx_iff_getElem?.mp hmem) ‹_›
    · exact bot_le

theorem mem_filed_args {idx : List ℕ} {x : FiledDeny} :
    x ∈ (args idx ps).filed o ↔ ∃ i p, ps[i]? = some p ∧ i ∈ idx ∧ x ∈ p.filed o := by
  rw [args, mem_filed_seqAll]
  constructor
  · rintro ⟨q, hq, hx⟩
    obtain ⟨⟨p, i⟩, hmem, rfl⟩ := List.mem_map.mp hq
    dsimp only at hx
    split at hx
    · exact ⟨i, p, List.mem_zipIdx_iff_getElem?.mp hmem, ‹_›, hx⟩
    · cases hx
  · rintro ⟨i, p, hp, hi, hx⟩
    exact ⟨p, List.mem_map.mpr ⟨(p, i), List.mem_zipIdx_iff_getElem?.mpr hp, by simp [hi]⟩, hx⟩

theorem faithful_args {idx : List ℕ} (h : ∀ p ∈ ps, p.Faithful o) : (args idx ps).Faithful o := by
  rw [args, faithful_seqAll, List.forall_mem_map]
  rintro ⟨p, i⟩ hmem
  have hp := h p (List.mem_of_getElem? (List.mem_zipIdx_iff_getElem?.mp hmem))
  dsimp only
  split <;> exact hp

end Outline

/-! ### What the walk does to the stack -/

namespace Rows

@[simp] theorem accumulateCaps_filed (σ : Rows) (row : CapRow) :
    (σ.accumulateCaps row).filed = σ.filed := by
  rw [accumulateCaps]; split <;> rfl

theorem accumulateCaps_stack (σ : Rows) (row : CapRow) :
    (σ.accumulateCaps row).stack = σ.stack.modifyHead (· ⊔ row) := by
  rw [accumulateCaps]
  cases hs : σ.stack with
  | nil => rw [hs, List.modifyHead_nil]
  | cons top rest => rfl

theorem accumulateBuiltinCall_stack (o : Typing) (σ : Rows) (name : String) :
    (σ.accumulateBuiltinCall o name).stack =
      σ.stack.modifyHead (· ⊔ builtinRow o (some name)) := by
  rw [accumulateBuiltinCall, builtinRow, Option.bind_some]
  cases hc : o.requiredCapabilityForBuiltin name with
  | none =>
    cases σ.stack with
    | nil => rfl
    | cons top rest => simp [← CapRow.bot_eq_empty]
  | some cap =>
    cases hs : σ.stack with
    | nil => simp [hs]
    | cons top rest => simp [CapRow.unionBits_eq]

theorem accumulateBuiltinCall_filed (o : Typing) (σ : Rows) (name : String) :
    (σ.accumulateBuiltinCall o name).filed = σ.filed := by
  rw [accumulateBuiltinCall]
  split
  · rfl
  · split <;> rfl

end Rows

/-- The walk `f` visits what `p` says. -/
structure Walks (o : Typing) (f : Rows → Rows) (p : Outline) : Prop where
  stack : ∀ σ, (f σ).stack = σ.stack.modifyHead (· ⊔ p.visitedRow)
  filed : ∀ σ x, x ∈ (f σ).filed ↔ x ∈ σ.filed ∨ x ∈ p.filed o
  faithful : p.Faithful o

namespace Walks

variable {f g : Rows → Rows} {p q : Outline}

/-- A part of the outline in which nothing is visited. -/
theorem idle (hr : p.visitedRow = ⊥) (hd : p.filed o = []) (hf : p.Faithful o) :
    Walks o (fun σ => σ) p where
  stack σ := by
    rw [hr]
    cases σ.stack with
    | nil => rfl
    | cons top rest => simp
  filed σ x := by simp [hd]
  faithful := hf

theorem skip : Walks o (fun σ => σ) .skip := idle rfl rfl trivial

theorem op : Walks o (fun σ => σ) .op := idle rfl rfl trivial

theorem leave (e : Exit) : Walks o (fun σ => σ) (.leave e) := idle rfl rfl trivial

theorem skipped (h : p.Faithful o) : Walks o (fun σ => σ) (.skipped p) := idle rfl rfl h

theorem call (row : CapRow) : Walks o (fun σ => σ.accumulateCaps row) (.call row) where
  stack σ := σ.accumulateCaps_stack row
  filed σ x := by simp [Outline.filed]
  faithful := trivial

theorem seq (hf : Walks o f p) (hg : Walks o g q) : Walks o (fun σ => g (f σ)) (.seq p q) where
  stack σ := by
    rw [hg.stack, hf.stack]
    cases σ.stack with
    | nil => rfl
    | cons top rest => simp [Outline.visitedRow, sup_assoc]
  filed σ x := by
    rw [hg.filed, hf.filed, Outline.filed, List.mem_append, or_assoc]
  faithful := ⟨hf.faithful, hg.faithful⟩

/-- Outlines that differ in nothing the walk can see. -/
theorem congr (h : Walks o f p) (hr : q.visitedRow = p.visitedRow)
    (hd : ∀ x, x ∈ q.filed o ↔ x ∈ p.filed o) (hf : q.Faithful o) : Walks o f q where
  stack σ := by rw [h.stack, hr]
  filed σ x := by rw [h.filed, hd]
  faithful := hf

theorem of_eq (h : Walks o f p) (heq : ∀ σ, g σ = f σ) : Walks o g p := by
  obtain rfl : g = f := funext heq
  exact h

theorem choice (hf : Walks o f p) (hg : Walks o g q) :
    Walks o (fun σ => g (f σ)) (.choice p q) :=
  (hf.seq hg).congr rfl (fun _ => Iff.rfl) ⟨hf.faithful, hg.faithful⟩

theorem loop (hf : Walks o f p) (hg : Walks o g q) : Walks o (fun σ => g (f σ)) (.loop p q) :=
  (hf.seq hg).congr rfl (fun _ => Iff.rfl) ⟨hf.faithful, hg.faithful⟩

theorem attempt (hf : Walks o f p) (hg : Walks o g q) :
    Walks o (fun σ => g (f σ)) (.attempt p q) :=
  (hf.seq hg).congr rfl (fun _ => Iff.rfl) ⟨hf.faithful, hg.faithful⟩

theorem spawn (h : Walks o f p) : Walks o f (.spawn p) :=
  h.congr rfl (fun _ => Iff.rfl) h.faithful

/-- A body with a row of its own ends with that row, and leaves the stack as it was. -/
theorem walkFrame (h : Walks o f p) (σ : Rows) :
    (walkFrame f σ).1 = p.visitedRow ∧ (walkFrame f σ).2.stack = σ.stack ∧
      (walkFrame f σ).2.filed = (f σ.push).filed := by
  have hs : (f σ.push).stack = p.visitedRow :: σ.stack := by
    rw [h.stack]
    show [⊥ ⊔ p.visitedRow] ++ σ.stack = _
    rw [bot_sup_eq]
    rfl
  simp only [Types.walkFrame, Rows.pop, hs]
  exact ⟨trivial, trivial, trivial⟩

theorem lambda (h : Walks o f p) : Walks o (fun σ => (Types.walkFrame f σ).2) (.lambda p) where
  stack σ := by
    rw [(h.walkFrame σ).2.1, Outline.visitedRow]
    cases σ.stack with
    | nil => rfl
    | cons top rest => simp
  filed σ x := by
    rw [(h.walkFrame σ).2.2, h.filed]
    exact Iff.rfl
  faithful := h.faithful

theorem deny {d : DenyBlock} (h : Walks o f (blockOutline o d.body)) :
    Walks o (walkDeny o d f) (.deny d (blockOutline o d.body)) where
  stack σ := by
    rw [walkDeny, Rows.accumulateCaps_stack, (h.walkFrame σ).1]
    show (Types.walkFrame f σ).2.stack.modifyHead _ = _
    rw [(h.walkFrame σ).2.1]
    rfl
  filed σ x := by
    rw [walkDeny, Rows.accumulateCaps_filed, Rows.judge, Outline.filed, (h.walkFrame σ).1,
      (h.walkFrame σ).2.2, List.mem_append, List.mem_append, h.filed, or_assoc]
    exact Iff.rfl
  faithful := ⟨rfl, h.faithful⟩

theorem getElem? {fs : List (Rows → Rows)} (h : List.Forall₂ (Walks o) fs ps) {i : ℕ} {p : Outline}
    (hp : ps[i]? = some p) : ∃ f, fs[i]? = some f ∧ Walks o f p := by
  induction h generalizing i with
  | nil => cases hp
  | cons hwalk _ ih =>
    cases i with
    | zero =>
      obtain rfl := Option.some.inj hp
      exact ⟨_, rfl, hwalk⟩
    | succ i => exact ih hp

/-- Walking the arguments with the given positions visits these arguments. -/
theorem args {fs : List (Rows → Rows)} (h : List.Forall₂ (Walks o) fs ps) (idx : List ℕ) :
    Walks o (walkArgs fs idx) (Outline.args idx ps) := by
  have hps : ∀ p ∈ ps, p.Faithful o := by
    intro p hp
    obtain ⟨i, hi⟩ := List.mem_iff_getElem?.mp hp
    obtain ⟨f, -, hwalk⟩ := getElem? h hi
    exact hwalk.faithful
  induction idx with
  | nil =>
    refine idle ?_ ?_ (faithful_args hps)
    · exact le_bot_iff.mp (visitedRow_args.mpr fun _ _ _ hi => absurd hi List.not_mem_nil)
    · refine List.eq_nil_iff_forall_not_mem.mpr fun x hx => ?_
      obtain ⟨_, _, _, hi, -⟩ := mem_filed_args.mp hx
      cases hi
  | cons i idx ih =>
    cases hp : ps[i]? with
    | none =>
      have hf : fs.getD i id = id := by
        have := h.length_eq
        rw [List.getElem?_eq_none_iff] at hp
        rw [List.getD_eq_getElem?_getD, List.getElem?_eq_none (by omega), Option.getD_none]
      have hwalk : walkArgs fs (i :: idx) = walkArgs fs idx := by
        funext σ
        rw [walkArgs, List.foldl_cons, hf]
        rfl
      rw [hwalk]
      have hne : ∀ {j p}, ps[j]? = some p → (j ∈ i :: idx ↔ j ∈ idx) := by
        intro j p hj
        rw [List.mem_cons, or_iff_right]
        rintro rfl
        rw [hp] at hj
        cases hj
      refine ih.congr ?_ (fun x => ?_) (faithful_args hps)
      · refine eq_of_forall_ge_iff fun row => ?_
        rw [visitedRow_args, visitedRow_args]
        exact forall₂_congr fun j p => forall_congr' fun hj => by rw [hne hj]
      · rw [mem_filed_args, mem_filed_args]
        exact exists₂_congr fun j p => and_congr_right fun hj => by rw [hne hj]
    | some p =>
      obtain ⟨f, hf, hwalk⟩ := getElem? h hp
      have hwalks : walkArgs fs (i :: idx) = fun σ => walkArgs fs idx (f σ) := by
        funext σ
        rw [walkArgs, List.foldl_cons, List.getD_eq_getElem?_getD, hf]
        rfl
      rw [hwalks]
      refine (hwalk.seq ih).congr ?_ (fun x => ?_) (faithful_args hps)
      · refine eq_of_forall_ge_iff fun row => ?_
        rw [visitedRow_args, Outline.visitedRow, sup_le_iff, visitedRow_args]
        constructor
        · intro hall
          exact ⟨hall i p hp List.mem_cons_self,
            fun j q hq hj => hall j q hq (List.mem_cons_of_mem i hj)⟩
        · rintro ⟨hhead, htail⟩ j q hq hj
          rcases List.mem_cons.mp hj with rfl | hj
          · rw [hp] at hq
            obtain rfl := Option.some.inj hq
            exact hhead
          · exact htail j q hq hj
      · rw [mem_filed_args, Outline.filed, List.mem_append, mem_filed_args]
        constructor
        · rintro ⟨j, q, hq, hj, hx⟩
          rcases List.mem_cons.mp hj with rfl | hj
          · rw [hp] at hq
            obtain rfl := Option.some.inj hq
            exact .inl hx
          · exact .inr ⟨j, q, hq, hj, hx⟩
        · rintro (hx | ⟨j, q, hq, hj, hx⟩)
          · exact ⟨i, p, hp, List.mem_cons_self, hx⟩
          · exact ⟨j, q, hq, List.mem_cons_of_mem i hj, hx⟩

/-- The builtin that a call by name may be. -/
theorem builtin (name : Option String) :
    Walks o (fun σ => name.elim σ (σ.accumulateBuiltinCall o)) (.call (builtinRow o name)) := by
  cases name with
  | none => exact idle rfl rfl trivial
  | some name =>
    refine ⟨fun σ => σ.accumulateBuiltinCall_stack o name, fun σ x => ?_, trivial⟩
    show x ∈ (σ.accumulateBuiltinCall o name).filed ↔ _
    rw [σ.accumulateBuiltinCall_filed o name]
    simp [Outline.filed]

theorem walkCall {callee : Rows → Rows} {c : Outline} (hc : Walks o callee c)
    {fs : List (Rows → Rows)} {ps : List Outline} (h : List.Forall₂ (Walks o) fs ps)
    (name : Option String) (span : Span) :
    Walks o (walkCall o name callee fs span) (callOutline o name c ps span) := by
  have hb := builtin (o := o) name
  have hlen : fs.length = ps.length := h.length_eq
  simp only [callOutline]
  cases hv : name.bind fun _ => o.bareVariant span with
  | some fields =>
    have hwalk : Types.walkCall o name callee fs span = fun σ =>
        walkArgs fs (variantArgs fields fs.length) (name.elim σ (σ.accumulateBuiltinCall o)) := by
      funext σ
      simp only [Types.walkCall, hv]
    rw [hwalk, hlen]
    have ha := args h (variantArgs fields ps.length)
    refine (hb.seq ha).congr (sup_comm _ _) (fun x => ?_) ⟨ha.faithful, trivial⟩
    simp [Outline.filed]
  | none =>
    cases ht : o.callee span with
    | other =>
      have hwalk : Types.walkCall o name callee fs span = fun σ =>
          callee (name.elim σ (σ.accumulateBuiltinCall o)) := by
        funext σ
        simp only [Types.walkCall, hv, ht]
      rw [hwalk]
      have ha := args h []
      have hidle : (Outline.args [] ps).visitedRow = ⊥ :=
        le_bot_iff.mp (visitedRow_args.mpr fun _ _ _ hi => absurd hi List.not_mem_nil)
      refine (hb.seq hc).congr ?_ (fun x => ?_) ⟨hc.faithful, ha.faithful, trivial⟩
      · simp only [Outline.visitedRow, hidle, bot_sup_eq]
        exact sup_comm _ _
      · have : x ∉ (Outline.args [] ps).filed o := by
          rw [mem_filed_args]
          rintro ⟨_, _, _, hi, -⟩
          cases hi
        simp [Outline.filed, this]
    | function params isOpaque caps =>
      have hwalk : Types.walkCall o name callee fs span = fun σ =>
          walkArgs fs (functionArgs name params isOpaque (o.firstIsMap span) fs.length)
            ((callee (name.elim σ (σ.accumulateBuiltinCall o))).accumulateCaps caps) := by
        funext σ
        simp only [Types.walkCall, hv, ht]
      rw [hwalk, hlen]
      have ha := args h (functionArgs name params isOpaque (o.firstIsMap span) ps.length)
      refine (hb.seq (hc.seq ((Walks.call caps).seq ha))).congr ?_ (fun x => ?_)
        ⟨hc.faithful, ha.faithful, trivial⟩
      · simp only [Outline.visitedRow]
        ac_rfl
      · simp [Outline.filed]

theorem walkStatic {fs : List (Rows → Rows)} {ps : List Outline}
    (h : List.Forall₂ (Walks o) fs ps) (span : Span) :
    Walks o (walkStatic o fs span) (staticOutline o ps span) := by
  have hlen : fs.length = ps.length := h.length_eq
  show Walks o (fun σ => (walkArgs fs (staticArgs (o.static span) fs.length) σ).accumulateCaps
    (staticCharge (o.static span))) _
  rw [hlen]
  exact (args h _).seq (Walks.call _)

theorem walkMethod {object : Rows → Rows} {p : Outline} (hp : Walks o object p)
    {fs : List (Rows → Rows)} {ps : List Outline} (h : List.Forall₂ (Walks o) fs ps)
    (span : Span) : Walks o (walkMethod o object fs span) (methodOutline o p ps span) := by
  have hlen : fs.length = ps.length := h.length_eq
  show Walks o (fun σ => (walkArgs fs (methodArgs (o.method span) fs.length)
    (object σ)).accumulateCaps (methodCharge (o.method span))) _
  rw [hlen, methodOutline]
  have ha := hp.seq ((args h (methodArgs (o.method span) ps.length)).seq
    (Walks.call (methodCharge (o.method span))))
  cases ht : o.method span with
  | dynTrait params byValue =>
    rw [ht] at ha
    cases byValue with
    | false => exact ha
    | true => exact ha.congr rfl (fun x => Iff.rfl) ⟨hp.faithful, ha.faithful.2.1, trivial⟩
  | bound _ | variant _ | method _ _ | field _ _ _ | rejected => rw [ht] at ha; exact ha

end Walks

/-! ### The walk of each construct visits its outline

By recursion over the syntax tree, one case for each constructor. -/

section Visits

variable (o : Typing)

theorem inferTail_cons_cons (s s' : Stmt) (stmts : List Stmt) (σ : Rows) :
    inferTail o (s :: s' :: stmts) σ = inferTail o (s' :: stmts) (checkStmt o s σ) := by
  rw [inferTail]
  all_goals nofun

mutual

theorem inferExpr_walks : ∀ e, Walks o (inferExpr o e) (exprOutline o e)
  | .intLiteral .. | .floatLiteral .. | .stringLiteral .. | .charLiteral .. | .boolLiteral ..
  | .noneLiteral .. | .identifier .. => Walks.skip
  | .interpolatedString parts _ => inferParts_walks parts
  | .fieldAccess object _ _ => inferExpr_walks object
  | .indexAccess object index _ =>
    (inferExpr_walks object).seq ((inferExpr_walks index).seq Walks.op)
  | .binaryOp binop left right _ => by
    have hand := (inferExpr_walks left).seq (Walks.skip.choice (inferExpr_walks right))
    have hop := (inferExpr_walks left).seq ((inferExpr_walks right).seq Walks.op)
    cases binop
    case and => exact hand
    case or => exact hand
    all_goals exact hop
  | .unaryOp _ operand _ => (inferExpr_walks operand).seq Walks.op
  | .fnCall callee as span =>
    (inferExpr_walks callee).walkCall (inferArgs_walks as) (calleeName callee) span
  | .methodCall object name as span => by
    simp only [exprOutline]
    split
    · rename_i h
      refine (Walks.walkStatic (inferArgs_walks as) span).of_eq fun σ => ?_
      simp only [inferExpr, if_pos h]
    · rename_i h
      refine ((inferExpr_walks object).walkMethod (inferArgs_walks as) span).of_eq fun σ => ?_
      simp only [inferExpr, if_neg h]
  | .staticMethodCall _ _ as span => Walks.walkStatic (inferArgs_walks as) span
  | .arrayLiteral elements _ | .tupleLiteral elements _ => inferExprs_walks elements
  | .mapLiteral entries _ => inferEntries_walks entries
  | .structLiteral name fields span => by
    simp only [exprOutline]
    split
    · rename_i h
      refine (inferFields_walks fields).of_eq fun σ => ?_
      simp only [inferExpr, if_pos h]
    · rename_i h
      refine (Walks.skipped (inferFields_walks fields).faithful).of_eq fun σ => ?_
      simp only [inferExpr, if_neg h]
  | .lambda _ _ body _ => (inferExpr_walks body).lambda
  | .ifExpr condition thenBranch elseBranch _ =>
    (inferExpr_walks condition).seq
      ((inferBlockAsExpr_walks thenBranch).choice (inferBlockOpt_walks elseBranch))
  | .matchExpr subject arms _ => (inferExpr_walks subject).seq (inferArms_walks arms)
  | .rangeExpr start stop _ _ => (inferExprOpt_walks start).seq (inferExprOpt_walks stop)
  | .pipeExpr left right span => by
    have hleft := inferExpr_walks left
    have hcall := (inferExpr_walks right).walkCall (.cons hleft .nil) (calleeName right) span
    cases right
    case fnCall callee as cspan =>
      exact (inferExpr_walks callee).walkCall (.cons hleft (inferArgs_walks as))
        (calleeName callee) cspan
    all_goals exact hcall
  | .borrow inner _ _ | .deref inner _ | .sharedExpr inner _ | .moveExpr inner _
  | .weakExpr inner _ | .cast inner _ _ | .await inner _ => (inferExpr_walks inner).seq Walks.op
  | .comptimeBlock body _ | .quantumBlock body _ | .unsafeBlock body _ => checkBlock_walks body
  | .block block _ => inferBlockAsExpr_walks block

theorem inferExprOpt_walks : ∀ e, Walks o (inferExprOpt o e) (exprOptOutline o e)
  | none => Walks.skip
  | some e => inferExpr_walks e

theorem inferExprs_walks : ∀ es, Walks o (inferExprs o es) (exprsOutline o es)
  | [] => Walks.skip
  | e :: es => (inferExpr_walks e).seq (inferExprs_walks es)

theorem inferArgs_walks : ∀ es, List.Forall₂ (Walks o) (inferArgs o es) (argOutlines o es)
  | [] => .nil
  | e :: es => .cons (inferExpr_walks e) (inferArgs_walks es)

theorem inferParts_walks : ∀ parts, Walks o (inferParts o parts) (partsOutline o parts)
  | [] => Walks.skip
  | .literal _ :: parts => inferParts_walks parts
  | .expr e :: parts => (inferExpr_walks e).seq (inferParts_walks parts)

theorem inferEntries_walks : ∀ entries, Walks o (inferEntries o entries) (entriesOutline o entries)
  | [] => Walks.skip
  | (k, v) :: entries =>
    (inferExpr_walks k).seq ((inferExpr_walks v).seq (inferEntries_walks entries))

theorem inferFields_walks : ∀ fields, Walks o (inferFields o fields) (fieldsOutline o fields)
  | [] => Walks.skip
  | (_, e) :: fields => (inferExpr_walks e).seq (inferFields_walks fields)

theorem inferArms_walks : ∀ arms, Walks o (inferArms o arms) (armsOutline o arms)
  | [] => Walks.skip
  | .mk _ guard body _ :: arms =>
    have hguard := Walks.skipped (inferExprOpt_walks guard).faithful
    (hguard.seq (inferExpr_walks body)).choice
      ((Walks.skip.choice hguard).seq (inferArms_walks arms))

theorem checkBlock_walks : ∀ b, Walks o (checkBlock o b) (blockOutline o b)
  | .mk stmts _ => checkStmts_walks stmts

theorem checkBlockOpt_walks : ∀ b, Walks o (checkBlockOpt o b) (blockOptOutline o b)
  | none => Walks.skip
  | some b => checkBlock_walks b

theorem checkStmts_walks : ∀ stmts, Walks o (checkStmts o stmts) (stmtsOutline o stmts)
  | [] => Walks.skip
  | s :: stmts => (checkStmt_walks s).seq (checkStmts_walks stmts)

theorem inferBlockAsExpr_walks : ∀ b, Walks o (inferBlockAsExpr o b) (blockOutline o b)
  | .mk stmts _ => inferTail_walks stmts

theorem inferBlockOpt_walks : ∀ b, Walks o (inferBlockOpt o b) (blockOptOutline o b)
  | none => Walks.skip
  | some b => inferBlockAsExpr_walks b

theorem inferTail_walks : ∀ stmts, Walks o (inferTail o stmts) (stmtsOutline o stmts)
  | [] => Walks.skip
  | s :: stmts => by
    have hs := checkStmt_walks s
    have htail := inferTail_walks stmts
    cases stmts with
    | cons s' stmts => exact (hs.seq htail).of_eq (inferTail_cons_cons o s s' stmts)
    | nil =>
      cases s
      case ifStmt condition thenBlock elifs elseBlock span =>
        cases elseBlock with
        | none => exact hs.seq Walks.skip
        | some elseBlock =>
          exact ((inferExpr_walks condition).seq ((inferBlockAsExpr_walks thenBlock).choice
            (inferElifs_walks elifs (inferBlockAsExpr_walks elseBlock)))).seq Walks.skip
      case tryCatch tryBlock name catchBlock span =>
        exact ((inferBlockAsExpr_walks tryBlock).attempt
          (inferBlockAsExpr_walks catchBlock)).seq Walks.skip
      all_goals exact hs.seq Walks.skip

theorem inferElifs_walks {els : Rows → Rows} {p : Outline} :
    ∀ elifs, Walks o els p → Walks o (fun σ => els (inferElifs o elifs σ)) (elifsOutline o p elifs)
  | [], h => h
  | (c, b) :: elifs, h =>
    (inferExpr_walks c).seq ((inferBlockAsExpr_walks b).choice (inferElifs_walks elifs h))

theorem checkElifs_walks {els : Rows → Rows} {p : Outline} :
    ∀ elifs, Walks o els p → Walks o (fun σ => els (checkElifs o elifs σ)) (elifsOutline o p elifs)
  | [], h => h
  | (c, b) :: elifs, h =>
    (inferExpr_walks c).seq ((checkBlock_walks b).choice (checkElifs_walks elifs h))

theorem checkStmt_walks : ∀ s, Walks o (checkStmt o s) (stmtOutline o s)
  | .letStmt _ _ _ value _ _ => inferExprOpt_walks value
  | .assign target _ value _ => (inferExpr_walks target).seq ((inferExpr_walks value).seq Walks.op)
  | .returnStmt value _ => (inferExprOpt_walks value).seq (Walks.leave .ret)
  | .ifStmt condition thenBlock elifs elseBlock _ =>
    (inferExpr_walks condition).seq
      ((checkBlock_walks thenBlock).choice (checkElifs_walks elifs (checkBlockOpt_walks elseBlock)))
  | .forStmt _ _ iterable body _ =>
    (inferExpr_walks iterable).seq (Walks.op.loop (checkBlock_walks body))
  | .whileStmt condition body _ => (inferExpr_walks condition).loop (checkBlock_walks body)
  | .exprStmt e _ => inferExpr_walks e
  | .throwStmt e _ => (inferExpr_walks e).seq (Walks.leave .raise)
  | .spawn e _ => (inferExpr_walks e).spawn
  | .tryCatch tryBlock _ catchBlock _ =>
    (checkBlock_walks tryBlock).attempt (checkBlock_walks catchBlock)
  | .breakStmt _ => Walks.leave .brk
  | .continueStmt _ => Walks.leave .cont
  | .select branches timeout _ =>
    Walks.skipped ⟨channels_faithful branches, duration_faithful timeout,
      branches_faithful branches, timeout_faithful timeout⟩
  | .denyBlock denied body span => Walks.deny (d := ⟨denied, body, span⟩) (checkBlock_walks body)

theorem channels_faithful : ∀ branches, (channelsOutline o branches).Faithful o
  | [] => trivial
  | .mk _ channel _ _ :: branches =>
    ⟨(inferExpr_walks channel).faithful, channels_faithful branches⟩

theorem branches_faithful : ∀ branches, (branchesOutline o branches).Faithful o
  | [] => trivial
  | .mk _ _ body _ :: branches => ⟨(checkBlock_walks body).faithful, branches_faithful branches⟩

theorem duration_faithful : ∀ timeout, (durationOutline o timeout).Faithful o
  | none => trivial
  | some (.mk duration _ _) => (inferExpr_walks duration).faithful

theorem timeout_faithful : ∀ timeout, (timeoutOutline o timeout).Faithful o
  | none => trivial
  | some (.mk _ body _) => (checkBlock_walks body).faithful

end

end Visits

/-! ### Which bodies have every call charged -/

/-- The rows of a body contain the row of every call that some execution can evaluate: the row of
the function, the row that its own variable is bound to (which never mentions the variable itself),
and the row of each `deny!` block, all of which are judged and filed. -/
structure ChargesEveryCall (o : Typing) (body : Block) : Prop where
  functionRow : ∀ c, (blockOutline o body).Evaluates c → c.row ≤ (checkFunction o body).1
  ownRow : ∀ (σ : CapEngine) (own : CapVarId) (c : Call), (blockOutline o body).Evaluates c →
    c.row ≤ ((σ.bindCapVar own (checkFunction o body).1).binding own).getD ⊥ ⊔ .var own
  denyRow : ∀ d ∈ (blockOutline o body).denies, ∃ x ∈ (checkFunction o body).2.filed,
    x.block = d ∧ ∀ c, (blockOutline o d.body).Evaluates c → c.row ≤ x.row

/-- The calls in positions that the walk skips add nothing to the calls in visited positions, in
the body and in each `deny!` block, and no `deny!` block stands in skipped positions only. -/
structure SkippedAreCovered (o : Typing) (body : Block) : Prop where
  calls : ∀ c, (blockOutline o body).Evaluates c → c.visited = false →
    c.row ≤ (blockOutline o body).visitedRow
  denies : ∀ d ∈ (blockOutline o body).denies, d ∈ (blockOutline o body).visitedDenies
  denyCalls : ∀ d ∈ (blockOutline o body).denies, ∀ c, (blockOutline o d.body).Evaluates c →
    c.visited = false → c.row ≤ (blockOutline o d.body).visitedRow

theorem checkFunction_row (o : Typing) (body : Block) :
    (checkFunction o body).1 = (blockOutline o body).visitedRow :=
  ((checkBlock_walks o body).walkFrame .new).1

theorem mem_checkFunction_filed {body : Block} {x : FiledDeny} :
    x ∈ (checkFunction o body).2.filed ↔ x ∈ (blockOutline o body).filed o := by
  rw [checkFunction, ((checkBlock_walks o body).walkFrame .new).2.2,
    (checkBlock_walks o body).filed, or_iff_right]
  exact List.not_mem_nil

/-- Visited calls are covered in any case, so only the skipped ones have to be. -/
theorem Outline.covered_iff {p : Outline} :
    (∀ c, p.Evaluates c → c.row ≤ p.visitedRow) ↔
      ∀ c, p.Evaluates c → c.visited = false → c.row ≤ p.visitedRow := by
  refine ⟨fun h c hc _ => h c hc, fun h c hc => ?_⟩
  cases hv : c.visited with
  | false => exact h c hc hv
  | true => exact hc.le_visitedRow hv

theorem chargesEveryCall_iff (o : Typing) (body : Block) :
    ChargesEveryCall o body ↔ SkippedAreCovered o body := by
  have hrow := checkFunction_row o body
  have hfaithful := (checkBlock_walks o body).faithful
  constructor
  · intro h
    have hfiled : ∀ d ∈ (blockOutline o body).denies, d ∈ (blockOutline o body).visitedDenies ∧
        ∀ c, (blockOutline o d.body).Evaluates c → c.row ≤ (blockOutline o d.body).visitedRow := by
      intro d hd
      obtain ⟨x, hx, rfl, hcalls⟩ := h.denyRow d hd
      obtain ⟨hmem, hxrow, -⟩ := hfaithful.mem_filed_iff.mp (mem_checkFunction_filed.mp hx)
      rw [hxrow] at hcalls
      exact ⟨hmem, hcalls⟩
    refine ⟨?_, fun d hd => (hfiled d hd).1, fun d hd => ?_⟩
    · rw [← Outline.covered_iff, ← hrow]
      exact h.functionRow
    · exact Outline.covered_iff.mp (hfiled d hd).2
  · intro h
    have hfun : ∀ c, (blockOutline o body).Evaluates c → c.row ≤ (checkFunction o body).1 := by
      rw [hrow]
      exact Outline.covered_iff.mpr h.calls
    refine ⟨hfun, fun σ own c hc => ?_, fun d hd => ?_⟩
    · exact (hfun c hc).trans (CapEngine.le_bindCapVar σ own _)
    · let row := (blockOutline o d.body).visitedRow
      let x : FiledDeny := ⟨d, row, deniedCapsUsed d.denied (o.resolveAt d.span row).concreteBits⟩
      have hx : x ∈ (blockOutline o body).filed o :=
        hfaithful.mem_filed_iff.mpr ⟨h.denies d hd, rfl, rfl⟩
      exact ⟨x, mem_checkFunction_filed.mpr hx, rfl, Outline.covered_iff.mpr (h.denyCalls d hd)⟩

/-- Inference finds one call, of a function that reads files. -/
def secretTyping : Typing where
  requiredCapabilityForBuiltin _ := none
  bareVariant _ := none
  callee _ := .function 0 false (.closed {.fsRead})
  firstIsMap _ := false
  namesType _ := false
  method _ := .rejected
  static _ := .rejected
  knownStruct _ := false
  resolveAt _ row := row

/-- `deny!(fs:read) { select { m = ch => { read_secret() } } }` -/
def denyAroundSelect : Block :=
  let call : Stmt := .exprStmt (.fnCall (.identifier "read_secret" ⟨0, 40, 51⟩) [] ⟨0, 40, 53⟩)
    ⟨0, 40, 53⟩
  let branch : SelectBranch := .mk "m" (.identifier "ch" ⟨0, 30, 32⟩) (.mk [call] ⟨0, 38, 55⟩)
    ⟨0, 26, 55⟩
  .mk [.denyBlock ["fs:read"] (.mk [.select [branch] none ⟨0, 17, 57⟩] ⟨0, 15, 59⟩) ⟨0, 0, 59⟩]
    ⟨0, 0, 59⟩

/-- The branch of a `select` is not walked, so a call in it is charged to nobody. -/
theorem select_branch_is_not_charged : ¬ ChargesEveryCall secretTyping denyAroundSelect := by
  intro h
  let row := builtinRow secretTyping (some "read_secret") ⊔ .closed {.fsRead}
  have hbranch : (stmtOutline secretTyping (.exprStmt (.fnCall (.identifier "read_secret"
      ⟨0, 40, 51⟩) [] ⟨0, 40, 53⟩) ⟨0, 40, 53⟩)).Runs [⟨row, true⟩] .normal :=
    .seq .skip (.seq .skip (.call row))
  have hrun : (blockOutline secretTyping denyAroundSelect).Runs [⟨row, false⟩] .normal :=
    .seq (.deny (.seq (.skipped (.seq (.seq .skip .skip) (.seq .skip (.left (.left
      (.seq hbranch .skip)))))) .skip)) .skip
  have hle := h.functionRow _ ⟨_, _, hrun, List.mem_singleton_self _⟩
  revert hle
  decide +kernel

end Kryos.Types
