import Mathlib
import Kryos.Ownership.Refinement

/-!
# Definite initialisation
-/

namespace Kryos.Ownership

open Kryos.Ast DefiniteAssignment

namespace Analyzer

variable {g : Analyzer → Analyzer} {b : Body String}

/-! ### Patterns -/

theorem RefinesBody.guess {name : String} {info : VarInfo} (hm : info.movedFields = [])
    (hi : info.assigned = true) (hg : RefinesBody g b) :
    RefinesBody (fun σ => g (σ.defineVar name info)) (.guess name b) := by
  have hdeclare : RefinesBody (fun σ => g (σ.defineVar name info)) (.declare name true b) :=
    hg.define fun _ => ⟨hm, hi⟩
  exact hdeclare

theorem RefinesBody.bindField (ty : Option TypeExpr) (name : String) (mutable : Bool) (span : Span)
    (hg : RefinesBody g b) :
    RefinesBody (fun σ => g (σ.bindField ty name mutable span)) (.guess name b) := by
  intro σ
  have hdefine : RefinesBody (fun τ : Analyzer => g (τ.defineVar name
      (.fresh .owned mutable ((ty.map σ.isTypeExprCopy).getD false) span))) (.guess name b) :=
    hg.guess rfl rfl
  exact hdefine.before (plain_recordStructName name fun _ => tyStructName ty) σ

theorem RefinesBody.payload {p : Pattern} {ps : List Pattern} {tys : List TypeExpr}
    (hp : RefinesBody (fun σ => g (bindPayload ps tys.tail (bindPattern p σ)))
      ((patternNames p).foldr .guess b))
    (hps : RefinesBody (fun σ => g (bindPayload ps tys.tail σ)) b) :
    RefinesBody (fun σ => g (bindPayload (p :: ps) tys σ)) ((patternNames p).foldr .guess b) := by
  cases p with
  | ident name mutable span => exact hps.bindField tys.head? name mutable span
  | _ => exact hp

mutual

theorem pattern_refines : (p : Pattern) → ∀ {g b}, RefinesBody g b →
    RefinesBody (fun σ => g (bindPattern p σ)) ((patternNames p).foldr .guess b)
  | .wildcard _, _, _, hg | .literal .., _, _, hg => hg
  | .ident .., _, _, hg => hg.guess rfl rfl
  | .tuple elements _, _, _, hg => patterns_refines elements hg
  | .struct _ fields _, _, _, hg => patternFields_refines fields hg
  | .enum name variant fields _, _, _, hg =>
    fun σ => payload_refines fields (σ.payloadTypes name variant) hg σ
  | .or [] _, _, _, hg => hg
  | .or (p :: _) _, _, _, hg => pattern_refines p hg

theorem patterns_refines : (ps : List Pattern) → ∀ {g b}, RefinesBody g b →
    RefinesBody (fun σ => g (bindPatterns ps σ)) ((patternsNames ps).foldr .guess b)
  | [], _, _, hg => hg
  | p :: ps, _, _, hg => by
    show RefinesBody _ ((patternNames p ++ patternsNames ps).foldr .guess _)
    rw [List.foldr_append]
    exact pattern_refines p (patterns_refines ps hg)

theorem patternFields_refines : (fs : List (String × Pattern)) → ∀ {g b}, RefinesBody g b →
    RefinesBody (fun σ => g (bindFields fs σ)) ((fieldsNames fs).foldr .guess b)
  | [], _, _, hg => hg
  | (_, p) :: fs, _, _, hg => by
    show RefinesBody _ ((patternNames p ++ fieldsNames fs).foldr .guess _)
    rw [List.foldr_append]
    exact pattern_refines p (patternFields_refines fs hg)

theorem payload_refines : (ps : List Pattern) → (tys : List TypeExpr) → ∀ {g b},
    RefinesBody g b →
    RefinesBody (fun σ => g (bindPayload ps tys σ)) ((patternsNames ps).foldr .guess b)
  | [], _, _, _, hg => hg
  | p :: ps, tys, _, _, hg => by
    show RefinesBody _ ((patternNames p ++ patternsNames ps).foldr .guess _)
    rw [List.foldr_append]
    have hps := payload_refines ps tys.tail hg
    exact (pattern_refines p hps).payload hps

end

/-! ### The walk -/

section Rules

variable {f : Analyzer → Analyzer} {p q : Prog String} {σ σ₀ : Analyzer}

theorem refines_skip : Refines (fun σ => σ) .skip := Plain.id.skip (fun _ => trivial) rfl

theorem refines_leave (e : Exit) : Refines (fun σ => σ) (.leave e) :=
  Plain.id.skip (fun _ => trivial) rfl

theorem refines_mayLeave (e : Exit) : Refines (fun σ => σ) (.mayLeave e) :=
  Plain.id.skip (fun _ => trivial) rfl

theorem refines_oldValue (name : String) (op : AssignOp) :
    Refines (fun σ => σ) (oldValue name op) := by
  cases op with
  | assign => exact refines_skip
  | _ => exact Plain.id.skip (fun _ => trivial) rfl

theorem Refines.loop (hf : Refines f p) (hg : Refines g q) :
    Refines (fun σ => g (f σ)) (.loop p q) :=
  fun σ ht => hf.seq hg σ ht

theorem Refines.attempt (hf : Refines f p) (hg : Refines g q) :
    Refines (fun σ => g (f σ)) (.attempt p q) :=
  fun σ ht => hf.seq hg σ ht

theorem Refines.defer (hf : Refines f p) (hg : Refines g q) :
    Refines (fun σ => g (f σ)) (.defer p q) :=
  fun σ ht => hf.seq hg σ ht

theorem Refines.handle (e : Exit) (hf : Refines f p) : Refines f (.handle e p) :=
  fun σ ht => hf σ ht

theorem Refines.shortCircuit (hf : Refines f p) (op : BinOp) :
    Refines f (if isShortCircuit op then p.perhaps else p) := by
  split
  · exact hf.perhaps
  · exact hf

theorem plain_captures (names : List String) (span : Span) :
    Plain fun σ => names.foldl (fun σ name => σ.checkUsable name span) σ := by
  induction names with
  | nil => exact Plain.id
  | cons name names ih => exact (plain_checkUsable name span).comp ih

theorem movedFieldOf_eq_none (ht : σ.Tidy) (object : Expr) (field : String) :
    σ.movedFieldOf object field = none := by
  rw [movedFieldOf.eq_def]
  split
  · split
    · next hl => simp [ht.lookup hl]
    · rfl
  · rfl

/-- No field is ever found moved. -/
theorem analyzeExpr_field (ht : σ.Tidy) (object : Expr) (field : String) (span : Span) :
    analyzeExpr (.fieldAccess object field span) .use σ = analyzeExpr object .use σ := by
  have hnone := movedFieldOf_eq_none ht object field
  rw [analyzeExpr, hnone]

theorem Refines.field {object : Expr} (h : Refines (analyzeExpr object .use) p) (field : String)
    (span : Span) : Refines (analyzeExpr (.fieldAccess object field span) .use) p := by
  intro σ ht
  rw [analyzeExpr_field ht]
  exact h σ ht

theorem Refines.of_field {object : Expr} {field : String} {span : Span}
    (h : Refines (analyzeExpr (.fieldAccess object field span) .use) p) :
    Refines (analyzeExpr object .use) p := by
  intro σ ht
  rw [← analyzeExpr_field ht object field span]
  exact h σ ht

theorem Refines.takeField {object : Expr} (h : Refines (analyzeExpr object .use) (exprProg object))
    (field : String) (span : Span) :
    Refines (analyzeExpr (.fieldAccess object field span) .move) (exprProg object) := by
  cases object with
  | identifier name _ => exact refines_checkUsable name span
  | _ => exact h

theorem refines_exprs {es : List Expr}
    (h : ∀ e ∈ es, ∀ a, Refines (analyzeExpr e a) (exprProg e)) :
    Refines (analyzeExprs es) (exprsProg es) := by
  induction es with
  | nil => exact refines_skip
  | cons e es ih =>
    have hes := ih fun e' he' => h e' (List.mem_cons_of_mem e he')
    exact (h e List.mem_cons_self .use).seq hes

theorem Refines.call {callee : Expr} {args : List Expr}
    (hf : Refines (analyzeExpr callee .use) (exprProg callee))
    (h : ∀ e ∈ args, ∀ a, Refines (analyzeExpr e a) (exprProg e)) (span : Span) (a : Access) :
    Refines (analyzeExpr (.fnCall callee args span) a) (exprProg (.fnCall callee args span)) := by
  by_cases hsend : ∃ channel value, isSend callee = true ∧ args = [channel, value]
  · obtain ⟨channel, value, hs, rfl⟩ := hsend
    have hpair := (h channel (by simp) .use).seq ((h value (by simp) .move).seq refines_skip)
    intro σ ht
    rw [analyzeExpr]
    · exact hf.seq hpair σ ht
    · exact hs
  · intro σ ht
    rw [analyzeExpr]
    · exact hf.seq (refines_exprs h) σ ht
    · intro channel value hs he
      exact hsend ⟨channel, value, hs, he⟩

theorem Refines.after (hf : Refines f p) (ht : σ.Tidy) : After σ p (f σ) := hf σ ht

/-- The branches, and the merge after them. -/
theorem Refines.merge (hf : Refines f p) (covered : Bool) (warnAt : Option Span)
    (branches : Analyzer → List Analyzer) :
    Refines (fun σ => mergeMoves σ.snapshotFull covered warnAt (branches σ) (f σ)) p :=
  fun σ ht => (hf.after ht).merge covered warnAt (branches σ)

theorem Refines.either (hf : Refines f p) (hg : Refines g q) :
    Refines (fun σ => g ((f σ).restoreFull σ.snapshotFull)) (Either p q) :=
  fun _ ht => ((hf.mayLeave .next).after ht).orElse ht hg

theorem RefinesBody.merged {a : Body String} (hf : RefinesBody f a) (hg : RefinesBody g b) :
    RefinesBody (fun σ => g (f σ)) (.merged a b) := by
  intro σ ht
  obtain ⟨ht₁, h₁⟩ := hf σ ht
  obtain ⟨ht₂, h₂⟩ := hg (f σ) ht₁
  refine ⟨ht₂, fun hq => ?_⟩
  obtain ⟨hq₁, hc₂, hv₂⟩ := h₂ hq
  obtain ⟨hq₀, hc₁, hv₁⟩ := h₁ hq₁
  rw [hv₁] at hc₂ hv₂
  exact ⟨hq₀, ⟨hc₁, hc₂⟩, hv₂⟩

theorem RefinesBody.assign {target value : Expr}
    (hv : ∀ a, Refines (analyzeExpr value a) (exprProg value))
    (ht : Refines (analyzeExpr target .use) (exprProg target)) (op : AssignOp) (span : Span)
    (hg : RefinesBody g b) :
    RefinesBody (fun σ => g (analyzeStmt (.assign target op value span) σ))
      (stmtBody (.assign target op value span) b) := by
  intro σ
  have hv := hv (initAccess (σ.exprIsCopy value) value)
  cases target with
  | identifier name _ =>
    have hassign := (refines_oldValue name op).seq (refines_assignVar name)
    exact RefinesBody.step (hv.seq hassign) hg σ
  | fieldAccess object _ _ => exact RefinesBody.step (hv.seq ht.of_field) hg σ
  | _ => exact RefinesBody.step (hv.seq ht) hg σ

theorem refines_timeout (timeout : Option SelectTimeout) :
    ∀ p ∈ timeoutProg timeout, Refines (fun σ => σ) p := by
  intro p hp
  match timeout, hp with
  | some (.mk _ (.mk _ _) _), hp =>
    obtain rfl := Option.some.inj hp
    exact Plain.id.skip (fun _ => ⟨trivial, trivial, trivial⟩) rfl

theorem elifs_kept : (elifs : List (Expr × Block)) → (q : Prog String) →
    (elifsProg elifs q).kept = q.kept
  | [], _ => rfl
  | (_, .mk _ _) :: elifs, q => elifs_kept elifs q

end Rules

section Alternatives

variable {σ σ₀ : Analyzer} {branches : List Analyzer}

/-- The first arm starts from the state before, and so do the others. -/
theorem arm_start (h : Along σ₀ σ) (h₀ : σ₀.Tidy) (hfirst : branches = [] → σ.view = σ₀.view) :
    (if branches.isEmpty then σ else σ.restoreFull σ₀.snapshotFull).Tidy ∧
      ((if branches.isEmpty then σ else σ.restoreFull σ₀.snapshotFull).Quiet → σ.Quiet ∧
        (if branches.isEmpty then σ else σ.restoreFull σ₀.snapshotFull).view = σ₀.view) := by
  cases branches with
  | nil => exact ⟨h.1, fun hq => ⟨hq, hfirst rfl⟩⟩
  | cons _ _ => exact h.restore h₀

theorem arm_refines (pattern : Pattern) {guard : Option Expr} {body : Expr}
    (hguard : Refines (analyzeOption guard) (optionProg guard))
    (hbody : Refines (analyzeExpr body .use) (exprProg body)) (span : Span) :
    Refines (fun σ => (analyzeExpr body .use
        (analyzeOption guard (bindPattern pattern σ.pushScope))).popScope)
      (armProg (.mk pattern guard body span)) := by
  have hlast := RefinesBody.step hbody RefinesBody.nil
  have hnext : Refines (analyzeOption guard) (.seq (optionProg guard) (.mayLeave .next)) :=
    hguard.seq (refines_mayLeave .next)
  have hnames := pattern_refines pattern (RefinesBody.step hnext hlast)
  exact (RefinesBody.step (refines_mayLeave .next) hnames).scope

/-- The state after arms that are walked over from `σ`, where `σ₀` is the state before all arms. -/
def AfterArms (σ₀ σ : Analyzer) (p : Prog String) (σ' : Analyzer) : Prop :=
  σ'.Tidy ∧ (σ'.Quiet → σ.Quiet ∧ p.clean σ₀.view ∧ σ'.view = mark p.kept σ₀.view)

theorem AfterArms.first {f : Analyzer → Analyzer} {p : Prog String} (hf : Refines f p)
    (h : Along σ₀ σ) (h₀ : σ₀.Tidy) (hfirst : branches = [] → σ.view = σ₀.view) :
    AfterArms σ₀ σ p (f (if branches.isEmpty then σ else σ.restoreFull σ₀.snapshotFull)) := by
  obtain ⟨ht, hq⟩ := arm_start h h₀ hfirst
  obtain ⟨ht₁, h₁⟩ := hf _ ht
  refine ⟨ht₁, fun hquiet => ?_⟩
  obtain ⟨hq₁, hc, hv⟩ := h₁ hquiet
  obtain ⟨hq₀, hv₀⟩ := hq hq₁
  exact ⟨hq₀, hv₀ ▸ hc, hv₀ ▸ hv⟩

theorem AfterArms.along {p : Prog String} {σ' : Analyzer} (h : AfterArms σ₀ σ p σ')
    (hσ : Along σ₀ σ) : Along σ₀ σ' := by
  refine ⟨h.1, fun hq => ?_⟩
  obtain ⟨hq₁, -, hv⟩ := h.2 hq
  exact ⟨(hσ.2 hq₁).1, p.kept, hv⟩

theorem AfterArms.orElse {p q : Prog String} {σ₁ σ₂ : Analyzer} (h₁ : AfterArms σ₀ σ p σ₁)
    (h₂ : AfterArms σ₀ σ₁ q σ₂) : AfterArms σ₀ σ (.orElse p q) σ₂ := by
  refine ⟨h₂.1, fun hq => ?_⟩
  obtain ⟨hq₁, hc₂, hv⟩ := h₂.2 hq
  obtain ⟨hq₀, hc₁, -⟩ := h₁.2 hq₁
  exact ⟨hq₀, ⟨hc₁, hc₂⟩, hv⟩

theorem AfterArms.after {p : Prog String} {σ' : Analyzer} (h : AfterArms σ₀ σ₀ p σ') :
    After σ₀ p σ' := h

/-- The state after `elif` branches, where `σ₀` is the state before the first branch. -/
def AfterElifs (σ₀ σ : Analyzer) (elifs : List (Expr × Block)) (σ' : Analyzer) : Prop :=
  Along σ₀ σ' ∧ (σ'.Quiet → σ.Quiet ∧
    ∀ q : Prog String, q.clean σ₀.view → (elifsProg elifs q).clean σ₀.view)

theorem AfterElifs.cons {f : Analyzer → Analyzer} {condition : Expr} {stmts : List Stmt}
    {elifs : List (Expr × Block)} {σ' : Analyzer} {span : Span} (h : Along σ₀ σ) (h₀ : σ₀.Tidy)
    (hf : Refines f
      (.seq (exprProg condition) (.seq (.mayLeave .next) (.scope (stmtsBody stmts)))))
    (hrest : Along σ₀ (f (σ.restoreFull σ₀.snapshotFull)) →
      AfterElifs σ₀ (f (σ.restoreFull σ₀.snapshotFull)) elifs σ') :
    AfterElifs σ₀ σ ((condition, .mk stmts span) :: elifs) σ' := by
  obtain ⟨ht, hb⟩ := h.branch h₀ hf
  have halong : Along σ₀ (f (σ.restoreFull σ₀.snapshotFull)) := by
    refine ⟨ht, fun hq => ?_⟩
    obtain ⟨hq₁, -, hv⟩ := hb hq
    exact ⟨(h.2 hq₁).1, _, hv⟩
  obtain ⟨h₁, h₂⟩ := hrest halong
  refine ⟨h₁, fun hq => ?_⟩
  obtain ⟨hq₁, hclean⟩ := h₂ hq
  obtain ⟨hq₀, hc, -⟩ := hb hq₁
  exact ⟨hq₀, fun q hq => ⟨hc, hclean q hq⟩⟩

/-- All branches of an `if`, from the `then` branch to the `else` branch. -/
theorem AfterElifs.close {p q : Prog String} {elifs : List (Expr × Block)} {σ₁ σ₂ : Analyzer}
    (h₁ : After σ₀ p σ₁) (h₂ : AfterElifs σ₀ σ₁ elifs σ₂) (h₀ : σ₀.Tidy) (hg : Refines g q) :
    After σ₀ (.orElse p (elifsProg elifs q)) (g (σ₂.restoreFull σ₀.snapshotFull)) := by
  obtain ⟨ht, hb⟩ := h₂.1.branch h₀ hg
  refine ⟨ht, fun hq => ?_⟩
  obtain ⟨hq₂, hc, hv⟩ := hb hq
  obtain ⟨hq₁, hclean⟩ := h₂.2 hq₂
  obtain ⟨hq₀, hc₁, -⟩ := h₁.2 hq₁
  exact ⟨hq₀, ⟨hc₁, hclean q hc⟩, hv.trans (by rw [Prog.kept, elifs_kept])⟩

end Alternatives

mutual

theorem expr_refines : (e : Expr) → (a : Access) → Refines (analyzeExpr e a) (exprProg e)
  | .identifier name span, .use => refines_checkUsable name span
  | .identifier name span, .move => refines_moveVar name span
  | .fieldAccess object field span, .use => (expr_refines object .use).field field span
  | .fieldAccess object field span, .move => (expr_refines object .use).takeField field span
  | .fnCall callee args span, a => (expr_refines callee .use).call (each_refines args) span a
  | .methodCall object _ args _, _ =>
    (expr_refines object .use).seq (refines_exprs (each_refines args))
  | .staticMethodCall _ _ args _, _ => refines_exprs (each_refines args)
  | .binaryOp op left right _, _ =>
    (expr_refines left .use).seq ((expr_refines right .use).shortCircuit op)
  | .pipeExpr left right _, _ | .indexAccess left right _, _ =>
    (expr_refines left .use).seq (expr_refines right .use)
  | .unaryOp _ inner _, _ | .borrow inner _ _, _ | .deref inner _, _ | .weakExpr inner _, _
  | .cast inner _ _, _ | .await inner _, _ => expr_refines inner .use
  | .sharedExpr inner _, _ | .moveExpr inner _, _ => expr_refines inner .move
  | .arrayLiteral elements _, _ | .tupleLiteral elements _, _ =>
    refines_exprs (each_refines elements)
  | .mapLiteral entries _, _ => entries_refines entries
  | .structLiteral _ fields _, _ => fields_refines fields
  | .lambda params _ body span, _ => by
    have hbody := RefinesBody.step (expr_refines body .use) RefinesBody.nil
    have hscope := (hbody.params params fun param _ _ hg =>
      hg.defineLambdaParam param).scope
    have hloop := refines_skip.loop (hscope.handle .ret)
    intro σ
    exact hloop.before (plain_captures (collectCaptures
      (fun name => name ∉ params.map paramName && (σ.lookupVar name).isSome) body) span) σ
  | .ifExpr condition (.mk thenStmts _) none _, _ =>
    (expr_refines condition .use).seq
      ((stmts_refines thenStmts).scope.merge false none fun σ =>
        [(analyzeStmts thenStmts σ.pushScope).popScope]).perhaps
  | .ifExpr condition (.mk thenStmts _) (some (.mk elseStmts _)) _, _ =>
    (expr_refines condition .use).seq
      (((stmts_refines thenStmts).scope.either (stmts_refines elseStmts).scope).merge true none
        fun σ =>
          let σ₁ := (analyzeStmts thenStmts σ.pushScope).popScope
          [σ₁, (analyzeStmts elseStmts (σ₁.restoreFull σ.snapshotFull).pushScope).popScope])
  | .matchExpr subject arms _, _ => by
    have harms : Refines (fun σ₀ =>
        mergeMoves σ₀.snapshotFull (!(analyzeArms arms σ₀.snapshotFull [] σ₀).1.isEmpty) none
          (analyzeArms arms σ₀.snapshotFull [] σ₀).1 (analyzeArms arms σ₀.snapshotFull [] σ₀).2)
        (armsProg arms) :=
      fun σ₀ h₀ => (arms_refines arms (Along.refl h₀) h₀ (fun _ => rfl) fun _ => rfl).after.merge
        _ _ _
    exact (expr_refines subject .use).seq harms
  | .block (.mk stmts _) _, _ | .comptimeBlock (.mk stmts _) _, _
  | .quantumBlock (.mk stmts _) _, _ | .unsafeBlock (.mk stmts _) _, _ => (stmts_refines stmts).scope
  | .interpolatedString parts _, _ => parts_refines parts
  | .rangeExpr start stop _ _, _ => (option_refines start).seq (option_refines stop)
  | .intLiteral .., _ | .floatLiteral .., _ | .stringLiteral .., _ | .charLiteral .., _
  | .boolLiteral .., _ | .noneLiteral .., _ => refines_skip

theorem each_refines : (es : List Expr) → ∀ e ∈ es, ∀ a, Refines (analyzeExpr e a) (exprProg e)
  | [], _, he => nomatch he
  | e :: es, e', he => fun a =>
    (List.mem_cons.1 he).elim (fun h => h ▸ expr_refines e a) fun h => each_refines es e' h a

theorem option_refines : (e : Option Expr) → Refines (analyzeOption e) (optionProg e)
  | none => refines_skip
  | some e => expr_refines e .use

theorem entries_refines : (es : List (Expr × Expr)) → Refines (analyzeEntries es) (entriesProg es)
  | [] => refines_skip
  | (k, v) :: es => ((expr_refines k .use).seq (expr_refines v .use)).seq (entries_refines es)

theorem fields_refines : (fs : List (String × Expr)) → Refines (analyzeFields fs) (fieldsProg fs)
  | [] => refines_skip
  | (_, v) :: fs => (expr_refines v .use).seq (fields_refines fs)

theorem parts_refines : (ps : List StringPart) → Refines (analyzeParts ps) (partsProg ps)
  | [] => refines_skip
  | .literal _ :: ps => parts_refines ps
  | .expr e :: ps => (expr_refines e .use).seq (parts_refines ps)

theorem arms_refines : (arms : List MatchArm) → ∀ {σ₀ σ : Analyzer} {branches : List Analyzer},
    Along σ₀ σ → σ₀.Tidy → (branches = [] → σ.view = σ₀.view) → (arms = [] → branches = []) →
    AfterArms σ₀ σ (armsProg arms) (analyzeArms arms σ₀.snapshotFull branches σ).2
  | [], _, _, _, h, _, hfirst, hnone =>
    ⟨h.1, fun hq => ⟨hq, trivial, (hfirst (hnone rfl)).trans (mark_nil _).symm⟩⟩
  | [.mk pattern guard body span], _, _, _, h, h₀, hfirst, _ =>
    .first ((arm_refines pattern (option_refines guard) (expr_refines body .use) span).handle .next)
      h h₀ hfirst
  | .mk pattern guard body span :: arm :: arms, _, _, _, h, h₀, hfirst, _ => by
    have harm := AfterArms.first
      (arm_refines pattern (option_refines guard) (expr_refines body .use) span) h h₀ hfirst
    exact harm.orElse (arms_refines (arm :: arms) (harm.along h) h₀ (by simp) nofun)

theorem stmts_refines : (ss : List Stmt) → RefinesBody (analyzeStmts ss) (stmtsBody ss)
  | [] => RefinesBody.nil
  | s :: ss => stmt_refines s (stmts_refines ss)

theorem stmt_refines : (s : Stmt) → ∀ {g b}, RefinesBody g b →
    RefinesBody (fun σ => g (analyzeStmt s σ)) (stmtBody s b)
  | .letStmt name mutable ty (some init) pattern span, _, _, hg => by
    intro σ
    have hlet := (hg.bindNames true (letNames pattern)).defineLet name mutable ty init
      (σ.letIsCopy ty init) span
    exact RefinesBody.step (expr_refines init (initAccess (σ.letIsCopy ty init) init)) hlet σ
  | .letStmt name mutable ty none pattern span, _, _, hg =>
    (hg.bindNames false (letNames pattern)).define fun _ => ⟨rfl, rfl⟩
  | .assign target op value span, _, _, hg =>
    RefinesBody.assign (expr_refines value) (expr_refines target .use) op span hg
  | .exprStmt e _, _, _, hg => .step (expr_refines e .use) hg
  | .returnStmt none _, _, _, hg => .step (refines_leave .ret) hg
  | .returnStmt (some e) _, _, _, hg => .step ((expr_refines e .move).seq (refines_leave .ret)) hg
  | .ifStmt condition (.mk thenStmts _) elifs none _, _, _, hg => by
    have hthen := (stmts_refines thenStmts).scope.mayLeave .next
    have hif : Refines (fun σ₀ =>
        let σ₁ := (analyzeStmts thenStmts σ₀.pushScope).popScope
        (analyzeElifs elifs σ₀.snapshotFull [σ₁] σ₁).2.restoreFull σ₀.snapshotFull)
        (Either (.scope (stmtsBody thenStmts)) (elifsProg elifs .skip)) := fun σ₀ h₀ =>
      AfterElifs.close (hthen.after h₀) (elifs_refines elifs (hthen.after h₀).along h₀) h₀
        refines_skip
    exact .step ((expr_refines condition .use).seq hif) hg
  | .ifStmt condition (.mk thenStmts _) elifs (some (.mk elseStmts _)) span, _, _, hg => by
    have hthen := (stmts_refines thenStmts).scope.mayLeave .next
    have hif : Refines (fun σ₀ =>
        let σ₁ := (analyzeStmts thenStmts σ₀.pushScope).popScope
        let σ₂ := (analyzeElifs elifs σ₀.snapshotFull [σ₁] σ₁).2
        (analyzeStmts elseStmts (σ₂.restoreFull σ₀.snapshotFull).pushScope).popScope)
        (Either (.scope (stmtsBody thenStmts)) (elifsProg elifs (.scope (stmtsBody elseStmts)))) :=
      fun σ₀ h₀ => AfterElifs.close (hthen.after h₀)
        (elifs_refines elifs (hthen.after h₀).along h₀) h₀ (stmts_refines elseStmts).scope
    have hmerge := hif.merge true (some span) fun σ₀ =>
      let σ₁ := (analyzeStmts thenStmts σ₀.pushScope).popScope
      let σ₂ := (analyzeElifs elifs σ₀.snapshotFull [σ₁] σ₁).2
      (analyzeElifs elifs σ₀.snapshotFull [σ₁] σ₁).1 ++
        [(analyzeStmts elseStmts (σ₂.restoreFull σ₀.snapshotFull).pushScope).popScope]
    exact .step ((expr_refines condition .use).seq hmerge) hg
  | .forStmt _ pattern iterable (.mk body _) _, _, _, hg =>
    .step ((expr_refines iterable .use).seq (refines_skip.loop
      ((stmts_refines body).bindNames true (patternNames pattern)).scope)) hg
  | .whileStmt condition (.mk body _) _, _, _, hg =>
    .step ((expr_refines condition .use).loop (stmts_refines body).scope) hg
  | .spawn e _, _, _, hg => .step (expr_refines e .move).perhaps hg
  | .select branches timeout _, _, _, hg =>
    .step (branches_refines branches (timeoutProg timeout) (refines_timeout timeout)) hg
  | .tryCatch (.mk tryStmts _) catchName (.mk catchStmts _) span, _, _, hg => by
    have hcatch : RefinesBody (fun σ => analyzeStmts catchStmts
        (σ.defineVar catchName (.fresh .owned false false span)))
        (.declare catchName true (stmtsBody catchStmts)) :=
      (stmts_refines catchStmts).define fun _ => ⟨rfl, rfl⟩
    exact .step ((stmts_refines tryStmts).scope.attempt hcatch.scope) hg
  | .throwStmt e _, _, _, hg => .step ((expr_refines e .move).seq (refines_leave .raise)) hg
  | .denyBlock _ (.mk body _) _, _, _, hg => (stmts_refines body).merged hg
  | .breakStmt _, _, _, hg => .step (refines_leave .brk) hg
  | .continueStmt _, _, _, hg => .step (refines_leave .cont) hg

theorem elifs_refines : (elifs : List (Expr × Block)) →
    ∀ {σ₀ σ : Analyzer} {branches : List Analyzer}, Along σ₀ σ → σ₀.Tidy →
    AfterElifs σ₀ σ elifs (analyzeElifs elifs σ₀.snapshotFull branches σ).2
  | [], _, _, _, h, _ => ⟨h, fun hq => ⟨hq, fun _ hc => hc⟩⟩
  | (condition, .mk stmts _) :: elifs, _, _, _, h, h₀ =>
    .cons h h₀ ((expr_refines condition .use).seq ((stmts_refines stmts).scope.mayLeave .next))
      fun halong => elifs_refines elifs halong h₀

theorem branches_refines : (branches : List SelectBranch) → (timeout : Option (Prog String)) →
    (∀ p ∈ timeout, Refines (fun σ => σ) p) →
    Refines (analyzeBranches branches) (selectProg branches timeout)
  | [], none, _ => refines_skip
  | [], some timeout, h => h timeout rfl
  | [.mk name channel (.mk stmts _) _], none, _ =>
    (expr_refines channel .use).seq ((stmts_refines stmts).bindNames true [name]).scope.perhaps
  | [.mk name channel (.mk stmts _) _], some timeout, h =>
    (expr_refines channel .use).seq
      (((stmts_refines stmts).bindNames true [name]).scope.defer (h timeout rfl))
  | .mk name channel (.mk stmts _) _ :: branch :: branches, timeout, h =>
    (expr_refines channel .use).seq (((stmts_refines stmts).bindNames true [name]).scope.defer
      (branches_refines (branch :: branches) timeout h))

end

theorem function_refines (params : List Param) (body : Block) :
    Refines (analyzeFunction params body) (functionProg params body) := by
  have hbody := (stmts_refines body.stmts).params params fun param _ _ hg =>
    hg.defineFunctionParam param
  exact hbody.scope.handle .ret

theorem handler_refines (handler : MessageHandler) :
    Refines (fun σ => analyzeHandler σ handler) (functionProg handler.params handler.body) := by
  have hbody := (stmts_refines handler.body.stmts).params handler.params
    fun param _ _ hg => hg.defineParam false param
  exact hbody.scope.handle .ret

/-! ### Modules -/

end Analyzer

mutual

/-- The bodies that the analysis walks over, with their parameters. -/
def declBodies : Decl → List (List Param × Block)
  | .function _ _ params _ (some body) .. => [(params, body)]
  | .actor _ _ handlers .. => handlers.map fun handler => (handler.params, handler.body)
  | .impl _ _ _ methods .. => declsBodies methods
  | _ => []

def declsBodies : List Decl → List (List Param × Block)
  | [] => []
  | d :: ds => declBodies d ++ declsBodies ds

end

/-- The outermost scope, where a function starts, holds no locals. -/
def outermost {κ : Type} (k : κ) : Stack κ String := [(k, Layer.empty)]

/-- Some execution reads a local that was declared without a value and has not been assigned. -/
def ReadsUnassigned (g : Mode) (function : List Param × Block) : Prop :=
  ∃ m, (functionProg function.1 function.2).runs g (outermost .plain) .fault m

namespace Analyzer

theorem mark_outermost {κ : Type} (K : List String) (k : κ) :
    mark K (outermost k) = outermost k := by
  show [(k, fun x => if x ∈ K then (Layer.empty x).map fun _ => true else Layer.empty x)] = _
  have hempty : (fun x => if x ∈ K then ((Layer.empty x).map fun _ => true : Option Bool)
      else Layer.empty x) = Layer.empty := by
    funext x
    split <;> rfl
  rw [hempty]
  rfl

/-- Declarations, and the bodies in them: from one to the next, nothing is left in scope. -/
def WalksOver (f : Analyzer → Analyzer) (bodies : List (List Param × Block)) : Prop :=
  ∀ σ : Analyzer, σ.Tidy → (f σ).Tidy ∧ ((f σ).Quiet →
    σ.Quiet ∧ (σ.view = outermost () → (f σ).view = outermost () ∧
      ∀ fn ∈ bodies, (functionProg fn.1 fn.2).clean (outermost ())))

section WalksOver

variable {f g : Analyzer → Analyzer} {as bs : List (List Param × Block)}

theorem WalksOver.nil : WalksOver (fun σ => σ) [] :=
  fun _ ht => ⟨ht, fun hq => ⟨hq, fun hv => ⟨hv, nofun⟩⟩⟩

theorem Refines.walksOver {params : List Param} {body : Block}
    (hf : Refines f (functionProg params body)) : WalksOver f [(params, body)] := by
  intro σ ht
  obtain ⟨ht₁, h₁⟩ := hf σ ht
  refine ⟨ht₁, fun hq => ?_⟩
  obtain ⟨hq₀, hc, hv₁⟩ := h₁ hq
  refine ⟨hq₀, fun hv => ?_⟩
  rw [hv] at hc hv₁
  refine ⟨hv₁.trans (mark_outermost _ _), fun fn hfn => ?_⟩
  obtain rfl := List.mem_singleton.1 hfn
  exact hc

theorem WalksOver.append (hf : WalksOver f as) (hg : WalksOver g bs) :
    WalksOver (fun σ => g (f σ)) (as ++ bs) := by
  intro σ ht
  obtain ⟨ht₁, h₁⟩ := hf σ ht
  obtain ⟨ht₂, h₂⟩ := hg (f σ) ht₁
  refine ⟨ht₂, fun hq => ?_⟩
  obtain ⟨hq₁, hv₂⟩ := h₂ hq
  obtain ⟨hq₀, hv₁⟩ := h₁ hq₁
  refine ⟨hq₀, fun hv => ?_⟩
  obtain ⟨hview₁, hc₁⟩ := hv₁ hv
  obtain ⟨hview₂, hc₂⟩ := hv₂ hview₁
  exact ⟨hview₂, fun fn hfn => (List.mem_append.1 hfn).elim (hc₁ fn) (hc₂ fn)⟩

theorem handlers_walk (handlers : List MessageHandler) :
    WalksOver (fun σ => handlers.foldl analyzeHandler σ)
      (handlers.map fun handler => (handler.params, handler.body)) := by
  induction handlers with
  | nil => exact WalksOver.nil
  | cons handler handlers ih => exact (handler_refines handler).walksOver.append ih

end WalksOver

mutual

theorem decl_walks : (d : Decl) → WalksOver (analyzeDecl d) (declBodies d)
  | .function _ _ params _ (some body) .. => (function_refines params body).walksOver
  | .function _ _ _ _ none .. => WalksOver.nil
  | .actor _ _ handlers .. => handlers_walk handlers
  | .impl _ _ _ methods .. => decls_walk methods
  | .struct .. | .enum .. | .trait .. | .typeAlias .. | .importDecl .. | .externBlock .. | .const .. =>
    WalksOver.nil

theorem decls_walk : (ds : List Decl) → WalksOver (analyzeDecls ds) (declsBodies ds)
  | [] => WalksOver.nil
  | d :: ds => (decl_walks d).append (decls_walk ds)

end

/-- The tables are collected before anything is in scope. -/
theorem scopes_collect (ds : List Decl) (σ : Analyzer) :
    (ds.foldl collectDecl σ).scopes = σ.scopes := by
  induction ds generalizing σ with
  | nil => rfl
  | cons d ds ih =>
    rw [List.foldl_cons, ih]
    cases d <;> rfl

theorem scopes_collectMethods (ds : List Decl) (σ : Analyzer) :
    (ds.foldl collectMethods σ).scopes = σ.scopes := by
  have hmethods {collect : Analyzer → Decl → Analyzer}
      (hcollect : ∀ σ d, (collect σ d).scopes = σ.scopes) (methods : List Decl) (σ : Analyzer) :
      (methods.foldl collect σ).scopes = σ.scopes := by
    induction methods generalizing σ with
    | nil => rfl
    | cons method methods ih => rw [List.foldl_cons, ih, hcollect]
  induction ds generalizing σ with
  | nil => rfl
  | cons d ds ih =>
    rw [List.foldl_cons, ih]
    cases d with
    | impl _ _ _ methods => exact hmethods (fun σ d => by cases d <;> rfl) methods σ
    | _ => rfl

end Analyzer

/-- A module without E0301. In every execution that is settled wherever it leaves a construct by
another path than the one the analysis goes on from, no unassigned local is read. -/
theorem accepted_reads_are_assigned (module : Module) (h : (Analyzer.analyzeModule module).Quiet) :
    ∀ fn ∈ declsBodies module.declarations, ¬ ReadsUnassigned .settled fn := by
  rintro fn hfn ⟨m, hrun⟩
  have hscopes : ((module.declarations.foldl Analyzer.collectMethods
      (module.declarations.foldl Analyzer.collectDecl .new))).scopes = [[]] := by
    rw [Analyzer.scopes_collectMethods, Analyzer.scopes_collect]
    rfl
  have htidy : Analyzer.Tidy (module.declarations.foldl Analyzer.collectMethods
      (module.declarations.foldl Analyzer.collectDecl .new)) := by
    rw [Analyzer.Tidy, hscopes]
    intro scope hs
    rw [List.mem_singleton.1 hs]
    nofun
  obtain ⟨-, hwalk⟩ := Analyzer.decls_walk module.declarations _ htidy
  obtain ⟨-, hview⟩ := hwalk h
  obtain ⟨-, hclean⟩ := hview (by rw [Analyzer.view, hscopes]; rfl)
  have hstart : Tracks (outermost ()) (outermost .plain) := Tracks.nil.push_plain
  exact ((functionProg fn.1 fn.2).runs_sound (hclean fn hfn) hstart hrun).1 rfl

section Example

private def here : Span := ⟨0, 0, 0⟩

private def setX (value : Int) : Stmt :=
  .assign (.identifier "x" here) .assign (.intLiteral value here) here

/-- `fn f(c) { let mut x: i64  if c { .. } else { x = 1 }  println(x) }` -/
def branchModule (thenStmts : List Stmt) : Module :=
  { name := "m", span := here,
    declarations := [.function "f" [] [.mk "c" none none here] none
      (some (.mk
        [.letStmt "x" true (some (.simple "i64" here)) none none here,
          .ifStmt (.identifier "c" here) (.mk thenStmts here) [] (some (.mk [setX 1] here)) here,
          .exprStmt (.fnCall (.identifier "println" here) [.identifier "x" here] here) here]
        here))
      false false [] [] here] }

theorem quiet_of_diagnostics {σ : Analyzer} (h : σ.diagnostics = []) : σ.Quiet := by
  intro d hd
  rw [h] at hd
  cases hd

/-- Both branches assign `x`. -/
theorem both_branches_assign :
    (Analyzer.analyzeModule (branchModule [setX 2])).Quiet ∧
      ∀ fn ∈ declsBodies (branchModule [setX 2]).declarations, ¬ ReadsUnassigned .settled fn := by
  have hquiet : (Analyzer.analyzeModule (branchModule [setX 2])).Quiet := quiet_of_diagnostics rfl
  exact ⟨hquiet, accepted_reads_are_assigned _ hquiet⟩

/-- The `then` branch assigns nothing, and the analysis goes on from the state after the `else`
branch. -/
theorem empty_branch_is_accepted :
    ¬ ∀ module : Module, (Analyzer.analyzeModule module).Quiet →
      ∀ fn ∈ declsBodies module.declarations, ¬ ReadsUnassigned .any fn := by
  intro h
  refine h (branchModule []) (quiet_of_diagnostics rfl) _ (List.mem_singleton_self _) ?_
  -- `c` and `x` are declared, and nothing changes after that
  let m : Stack Kind String :=
    declare "x" false (declare "c" true ((.plain, Layer.empty) :: outermost .plain))
  have hread : ∀ x, vis m x ≠ some false → Run.reads x m .done m := fun x hx =>
    .inl ⟨hx, .inl rfl, rfl⟩
  refine ⟨outermost .plain, .inr ⟨nofun, m, ⟨nofun, nofun, ?_⟩, rfl⟩⟩
  refine .inl ⟨m, .inl ⟨m, hread "c" (by decide), ?_⟩, ?_⟩
  -- the `then` branch is taken
  · exact .inr ⟨nofun, .inl ⟨m, .inl ⟨m, ⟨.inl rfl, rfl⟩, _, ⟨rfl, rfl⟩, rfl⟩, rfl, rfl, nofun⟩⟩
  -- and `x` is read
  · exact .inr ⟨nofun, .inl ⟨m, hread "println" (by decide),
      .inr ⟨nofun, .inr ⟨by decide, rfl, rfl⟩⟩⟩⟩

end Example

end Kryos.Ownership
