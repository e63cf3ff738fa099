import Kryos.Types.DenySettle

/-!
# Which chains of references the verdict follows

An obligation can be passed on along a chain of references, each of which references the owner of
the one before. `settleDenies` does not follow every chain. It drops an obligation whose span, owner
and resolved row it met before, although instantiation starts from the row as it was filed and not
from the resolved one; it stops at a row without unbound variables, although a reference can also
replace a variable that lies on a cycle; and it judges in the state that sixteen rounds over the
references leave.

`FollowsChains` says that none of the three goes wrong in a state. Then every chain is judged
(`settleDenies_complete`).
-/

namespace Kryos.Types.CapEngine

open Kryos.Ast Kryos.Capabilities Relation

variable {σ c c' : CapEngine}

/-- The state that the references of `σ` complete to, when nothing limits the rounds. -/
noncomputable def completion (σ : CapEngine) : CapEngine :=
  leastCompletion σ.instantiations σ.taken

/-- A chain of references that starts with a reference to `owner`, each next one a reference to the
owner of the one before. -/
def Links : Option CapVarId → List Instantiation → Prop
  | _, [] => True
  | owner, r :: chain => owner = some r.callee ∧ Links r.owner chain

instance decidableLinks (owner : Option CapVarId) :
    (chain : List Instantiation) → Decidable (Links owner chain)
  | [] => isTrue trivial
  | r :: chain =>
    have := decidableLinks r.owner chain
    inferInstanceAs (Decidable (owner = some r.callee ∧ Links r.owner chain))

/-- A row, instantiated along a chain of references. -/
def instantiateAlong (c : CapEngine) (row : CapRow) (chain : List Instantiation) : CapRow :=
  chain.foldl (fun row r => c.instantiateRow row r.map) row

/-- The verdict on the obligations of `σ` has a violation for every obligation that some chain of
the recorded references gives a denied capability. -/
def ReportsEveryChain (σ : CapEngine) (out : List DenyViolation) : Prop :=
  ∀ ob ∈ σ.denyObligations, ∀ chain : List Instantiation, (∀ r ∈ chain, r ∈ σ.instantiations) →
    Links ob.owner chain →
    deniedCapsUsed ob.denied
      (σ.completion.resolveCapRow (σ.completion.instantiateAlong ob.row chain)).concreteBits ≠ [] →
    ∃ v ∈ out, v.span = ob.span

/-- The rows that the obligations with one span stand for, each in the declaration `owner`, when
references are followed in the state `c`. -/
inductive Filed (σ c : CapEngine) (span : Span) : Option CapVarId → CapRow → Prop
  | base (ob : DenyObligation) (h : ob ∈ σ.denyObligations) (hs : ob.span = span) :
      Filed σ c span ob.owner ob.row
  | along {row : CapRow} (r : Instantiation) (h : r ∈ σ.instantiations)
      (hrow : Filed σ c span (some r.callee) row) :
      Filed σ c span r.owner (c.instantiateRow row r.map)

/-- No chain is lost in the state `c`. -/
structure FollowsChains (σ c : CapEngine) : Prop where
  /-- One span is one block. -/
  denied : ∀ ob ∈ σ.denyObligations, ∀ ob' ∈ σ.denyObligations, ob.span = ob'.span →
    ob.denied = ob'.denied
  /-- Of two rows that resolve alike the loop follows one, and the other would have led to the
  same. -/
  prune : ∀ {span : Span} {own : CapVarId} {row row' : CapRow},
    Filed σ c span (some own) row → Filed σ c span (some own) row' →
    c.resolveCapRow row = c.resolveCapRow row' → c.dependsOnUnbound row →
    ∀ r ∈ σ.instantiations, r.callee = own →
      c.resolveCapRow (c.instantiateRow row r.map) = c.resolveCapRow (c.instantiateRow row' r.map)
  /-- A row that the loop stops at is none that a reference could change. -/
  stop : ∀ {span : Span} {own : CapVarId} {row : CapRow}, Filed σ c span (some own) row →
    c.resolveCapRow row ≠ .unknown → c.dependsOnUnbound row = false →
    ∀ r ∈ σ.instantiations, r.callee = own →
      c.resolveCapRow (c.instantiateRow row r.map) = c.resolveCapRow row

/-! ### Sixteen rounds can be enough -/

theorem Alike.refl (σ : CapEngine) : Alike σ σ :=
  ⟨rfl, rfl, rfl, rfl, fun _ => rfl, rfl⟩

theorem Alike.resolveCapRow (h : Alike c c') (row : CapRow) :
    c'.resolveCapRow row = c.resolveCapRow row := by
  have hvar : c'.resolveCapVar = c.resolveCapVar := by
    funext v
    rw [resolveCapVar, h.reachable, h.collect, resolveCapVar]
  cases row with
  | unknown => rfl
  | resolved concrete vars => rw [CapEngine.resolveCapRow, hvar, CapEngine.resolveCapRow]

theorem Alike.dependsOnUnbound (h : Alike c c') (row : CapRow) :
    c'.dependsOnUnbound row = c.dependsOnUnbound row := by
  have hbound : c'.isBound = c.isBound := funext h.isBound
  rw [CapEngine.dependsOnUnbound, h.resolveCapRow, hbound, CapEngine.dependsOnUnbound]

theorem Alike.instantiateAlong (h : Alike c c') (row : CapRow) (chain : List Instantiation) :
    c'.instantiateAlong row chain = c.instantiateAlong row chain := by
  have hinst : (fun row (r : Instantiation) => c'.instantiateRow row r.map) =
      fun row r => c.instantiateRow row r.map := by
    funext row r
    exact h.instantiateRow row r.map
  rw [CapEngine.instantiateAlong, hinst, CapEngine.instantiateAlong]

theorem Alike.filed (h : Alike c c') {span : Span} {owner : Option CapVarId} {row : CapRow}
    (hrow : Filed σ c' span owner row) : Filed σ c span owner row := by
  induction hrow with
  | base ob hob hs => exact .base ob hob hs
  | along r hr _ ih =>
    rw [h.instantiateRow]
    exact .along r hr ih

theorem Alike.followsChains (h : Alike c c') (hc : FollowsChains σ c) : FollowsChains σ c' where
  denied := hc.denied
  prune hrow hrow' heq hopen r hr hown := by
    rw [h.resolveCapRow, h.resolveCapRow] at heq
    rw [h.dependsOnUnbound] at hopen
    rw [h.instantiateRow, h.instantiateRow, h.resolveCapRow, h.resolveCapRow]
    exact hc.prune (h.filed hrow) (h.filed hrow') heq hopen r hr hown
  stop hrow hknown hopen r hr hown := by
    rw [h.resolveCapRow] at hknown
    rw [h.dependsOnUnbound] at hopen
    rw [h.instantiateRow, h.resolveCapRow, h.resolveCapRow]
    exact hc.stop (h.filed hrow) hknown hopen r hr hown

/-- Rounds after a fixed point change nothing that matters. -/
theorem alike_iterate {refs : List Instantiation} (h : FixedPoint refs σ) (n : ℕ) :
    Alike σ ((completeRound refs)^[n] σ) := by
  have hstep : FixedPoint refs ((completeRound refs)^[n] σ) ∧
      Alike σ ((completeRound refs)^[n] σ) := by
    induction n with
    | zero => exact ⟨h, Alike.refl σ⟩
    | succ n ih =>
      rw [Function.iterate_succ_apply']
      have hidle := (fixedPoint_iff refs _).mp ih.1
      exact ⟨ih.1.completeRound, ih.2.trans ((completeRound_widens refs _).alike hidle)⟩
  exact hstep.2

theorem completeRounds_eq_iterate (refs : List Instantiation) (k : ℕ) (σ : CapEngine) :
    ∃ n, completeRounds refs k σ = (completeRound refs)^[n] σ := by
  induction k generalizing σ with
  | zero => exact ⟨0, rfl⟩
  | succ k ih =>
    rw [completeRounds]
    split
    · exact ⟨1, rfl⟩
    · obtain ⟨n, hn⟩ := ih (completeRound refs σ)
      exact ⟨n + 1, hn⟩

/-- Where sixteen rounds are enough, the obligations are judged in the least completion. -/
theorem alike_completion (h : roundsNeeded σ.instantiations σ.taken ≤ 16) :
    Alike σ.completion σ.completed := by
  obtain ⟨n, hn⟩ := completeRounds_eq_iterate σ.instantiations 16 σ.taken
  have hfix : FixedPoint σ.instantiations ((completeRound σ.instantiations)^[n] σ.taken) := by
    rw [← hn]
    exact (fixedPoint_completeRounds _ 16 _).mpr (roundsNeeded_le_iff.mp h)
  have hle : roundsNeeded σ.instantiations σ.taken ≤ n :=
    roundsNeeded_le_iff.mpr ⟨n, Nat.le_refl n, hfix⟩
  have heq : σ.completed = (completeRound σ.instantiations)^[n -
      roundsNeeded σ.instantiations σ.taken] σ.completion := by
    rw [completion, leastCompletion, ← Function.iterate_add_apply, Nat.sub_add_cancel hle, ← hn]
    rfl
  rw [heq]
  exact alike_iterate (fixedPoint_leastCompletion _ _) _

/-! ### What the loop reports -/

/-- Everything that was reported is in the list of violations. -/
def Verdict.Backed (acc : Verdict) : Prop :=
  ∀ p ∈ acc.reported, ∃ v ∈ acc.out, v.span = p.1

theorem Verdict.Backed.report {acc : Verdict} (h : acc.Backed) (ob : DenyObligation)
    (name : String) : (acc.report ob name).Backed := by
  rw [Verdict.report]
  split
  · exact h
  · intro p hp
    rcases List.mem_cons.mp hp with rfl | hp
    · exact ⟨_, List.mem_append_right _ (List.mem_singleton_self _), rfl⟩
    · obtain ⟨v, hv, hs⟩ := h p hp
      exact ⟨v, List.mem_append_left _ hv, hs⟩

theorem Verdict.reported_report (acc : Verdict) (ob : DenyObligation) (name : String) :
    acc.reported ⊆ (acc.report ob name).reported ∧
      (ob.span, name) ∈ (acc.report ob name).reported := by
  rw [Verdict.report]
  split
  · rename_i hmem
    exact ⟨List.Subset.refl _, hmem⟩
  · exact ⟨List.subset_cons_self _ _, List.mem_cons_self⟩

theorem reports_foldl (ob : DenyObligation) (names : List String) {acc : Verdict}
    (h : acc.Backed) :
    (names.foldl (Verdict.report ob) acc).Backed ∧
      acc.reported ⊆ (names.foldl (Verdict.report ob) acc).reported ∧
      ∀ d ∈ names, (ob.span, d) ∈ (names.foldl (Verdict.report ob) acc).reported := by
  induction names generalizing acc with
  | nil => exact ⟨h, List.Subset.refl _, by simp⟩
  | cons name names ih =>
    obtain ⟨hback, hsub, hnames⟩ := ih (h.report ob name)
    obtain ⟨hstep, hname⟩ := acc.reported_report ob name
    refine ⟨hback, List.Subset.trans hstep hsub, fun d hd => ?_⟩
    rcases List.mem_cons.mp hd with rfl | hd
    · exact hsub hname
    · exact hnames d hd

/-- Every denied capability of a visited obligation is reported for its span. -/
theorem judge_foldl (c : CapEngine) (visited : List DenyObligation) {acc : Verdict}
    (h : acc.Backed) :
    (visited.foldl c.judge acc).Backed ∧ acc.reported ⊆ (visited.foldl c.judge acc).reported ∧
      ∀ ob ∈ visited, ∀ d ∈ deniedCapsUsed ob.denied (c.judgedBits ob),
        (ob.span, d) ∈ (visited.foldl c.judge acc).reported := by
  induction visited generalizing acc with
  | nil => exact ⟨h, List.Subset.refl _, by simp⟩
  | cons ob visited ih =>
    obtain ⟨hback, hsub, hnames⟩ := reports_foldl ob _ h
    obtain ⟨hback', hsub', hvisited⟩ := ih hback
    refine ⟨hback', List.Subset.trans hsub hsub', fun ob' hob' d hd => ?_⟩
    rcases List.mem_cons.mp hob' with rfl | hob'
    · exact hsub' (hnames d hd)
    · exact hvisited ob' hob' d hd

/-- Nothing is denied that is not denied of `all`. -/
theorem deniedCapsUsed_all {denied : List String} {bits : CapBits} {d : String}
    (hd : d ∈ deniedCapsUsed denied bits) : d ∈ deniedCapsUsed denied {.all} := by
  simp only [deniedCapsUsed, List.mem_filter] at hd ⊢
  refine ⟨hd.1, ?_⟩
  cases hc : Capability.fromStr d with
  | none => simp [hc] at hd
  | some cap => simp [CapabilitySet.satisfiesRequired, Capability.satisfies]

theorem mem_deniedCapsUsed_judgedBits {ob : DenyObligation} {d : String}
    (hd : d ∈ deniedCapsUsed ob.denied (c.resolveCapRow ob.row).concreteBits) :
    d ∈ deniedCapsUsed ob.denied (c.judgedBits ob) := by
  rw [judgedBits]
  split
  · exact deniedCapsUsed_all hd
  · exact hd

/-! ### Which chains the loop follows -/

theorem mem_passedOn {refs : List Instantiation} {ob ob' : DenyObligation} :
    ob' ∈ c.passedOn refs ob ↔ c.dependsOnUnbound ob.row ∧
      ∃ r ∈ refs, ob.owner = some r.callee ∧ c.passOn ob r = ob' := by
  rw [passedOn]
  split
  · rename_i h
    simp [h, and_assoc]
  · rename_i h
    simp [h]

/-- What is on the stack is a base obligation, passed on along some chain. -/
theorem filed_of_reach {ob ob' : DenyObligation} (hob : ob ∈ σ.denyObligations)
    (h : ReflTransGen (fun a b => b ∈ c.passedOn σ.instantiations a) ob ob') :
    ob'.span = ob.span ∧ ob'.denied = ob.denied ∧ Filed σ c ob.span ob'.owner ob'.row := by
  induction h with
  | refl => exact ⟨rfl, rfl, .base ob hob rfl⟩
  | tail _ hstep ih =>
    obtain ⟨hspan, hdenied, hfiled⟩ := ih
    obtain ⟨-, r, hr, howner, rfl⟩ := mem_passedOn.mp hstep
    rw [howner] at hfiled
    exact ⟨hspan, hdenied, .along r hr hfiled⟩

theorem dependsOnUnbound_congr {row row' : CapRow}
    (h : c.resolveCapRow row = c.resolveCapRow row') :
    c.dependsOnUnbound row = c.dependsOnUnbound row' := by
  rw [dependsOnUnbound, h, dependsOnUnbound]

/-- A visited obligation that stands for the row `row` in the declaration `owner`: it resolves to
the unknown row, or to the same row, and then it is in the same declaration unless the loop stops
at the row. -/
def StandsFor (c : CapEngine) (span : Span) (owner : Option CapVarId) (row : CapRow)
    (ob : DenyObligation) : Prop :=
  ob.span = span ∧ (c.resolveCapRow ob.row = .unknown ∨
    (c.resolveCapRow ob.row = c.resolveCapRow row ∧
      (ob.owner = owner ∨ c.dependsOnUnbound row = false)))

section Visited

variable {visited : List DenyObligation}

section

variable {span : Span} {row : CapRow} (hc : FollowsChains σ c)
  (hfiled : ∀ b ∈ visited, Filed σ c b.span b.owner b.row)
  (hnext : ∀ b ∈ visited, ∀ b' ∈ c.passedOn σ.instantiations b, ∃ b'' ∈ visited, c.obligationKey b'' = c.obligationKey b')

include hc hfiled hnext

/-- What stands for a row leads to what stands for the row passed on. -/
theorem standsFor_along {r : Instantiation} (hr : r ∈ σ.instantiations)
    (hrow : Filed σ c span (some r.callee) row)
    (h : ∃ b ∈ visited, StandsFor c span (some r.callee) row b) :
    ∃ b ∈ visited, StandsFor c span r.owner (c.instantiateRow row r.map) b := by
  obtain ⟨b, hb, rfl, hunknown | ⟨heq, howner⟩⟩ := h
  · exact ⟨b, hb, rfl, .inl hunknown⟩
  · by_cases hknown : c.resolveCapRow row = .unknown
    · exact ⟨b, hb, rfl, .inl (heq.trans hknown)⟩
    · cases hopen : c.dependsOnUnbound row with
      | false =>
        have hsame := hc.stop hrow hknown hopen r hr rfl
        refine ⟨b, hb, rfl, .inr ⟨heq.trans hsame.symm, .inr ?_⟩⟩
        rw [dependsOnUnbound_congr hsame, hopen]
      | true =>
        have howner : b.owner = some r.callee := by
          rcases howner with howner | hstop
          · exact howner
          · rw [hopen] at hstop
            cases hstop
        have hbopen : c.dependsOnUnbound b.row := by
          rw [dependsOnUnbound_congr heq, hopen]
        obtain ⟨b', hb', hkey⟩ :=
          hnext b hb (c.passOn b r) (mem_passedOn.mpr ⟨hbopen, r, hr, howner, rfl⟩)
        have hbfiled : Filed σ c b.span (some r.callee) b.row := howner ▸ hfiled b hb
        have hsame := hc.prune hbfiled hrow heq hbopen r hr rfl
        obtain ⟨hspan, howner', hrow'⟩ : b'.span = b.span ∧ b'.owner = r.owner ∧
            c.resolveCapRow b'.row = c.resolveCapRow (c.instantiateRow b.row r.map) := by
          simpa [obligationKey, passOn] using hkey
        exact ⟨b', hb', hspan, .inr ⟨hrow'.trans hsame, .inl howner'⟩⟩

/-- Every chain from a row that is stood for ends in a row that is stood for. -/
theorem standsFor_chain {chain : List Instantiation} (hchain : ∀ r ∈ chain, r ∈ σ.instantiations)
    {owner : Option CapVarId} (hlinks : Links owner chain) (hrow : Filed σ c span owner row)
    (h : ∃ b ∈ visited, StandsFor c span owner row b) :
    ∃ owner', ∃ b ∈ visited, StandsFor c span owner' (c.instantiateAlong row chain) b := by
  induction chain generalizing owner row with
  | nil => exact ⟨owner, h⟩
  | cons r chain ih =>
    obtain ⟨rfl, hlinks⟩ := hlinks
    have hr := hchain r List.mem_cons_self
    exact ih (fun r' hr' => hchain r' (List.mem_cons_of_mem r hr')) hlinks (.along r hr hrow)
      (standsFor_along hc hfiled hnext hr hrow h)

end

end Visited

/-- Where no chain is lost, every chain that gives an obligation a denied capability is reported. -/
theorem settleLoop_reports (hc : FollowsChains σ c) {fuel : ℕ} {verdict : Verdict}
    (hloop : settleLoop fuel c σ.instantiations σ.denyObligations = some verdict)
    {ob : DenyObligation} (hob : ob ∈ σ.denyObligations) {chain : List Instantiation}
    (hchain : ∀ r ∈ chain, r ∈ σ.instantiations) (hlinks : Links ob.owner chain)
    (hdenied : deniedCapsUsed ob.denied
      (c.resolveCapRow (c.instantiateAlong ob.row chain)).concreteBits ≠ []) :
    ∃ v ∈ verdict.out, v.span = ob.span := by
  obtain ⟨visited, rfl, hreach, hwork, hnext⟩ := Worklist.loop_spec hloop
  simp only [List.not_mem_nil, false_or, List.mem_reverse] at hreach hwork hnext
  have hfrom : ∀ b ∈ visited, ∃ ob ∈ σ.denyObligations,
      b.span = ob.span ∧ b.denied = ob.denied ∧ Filed σ c ob.span b.owner b.row := by
    intro b hb
    obtain ⟨ob, hob, hstep⟩ := hreach b hb
    exact ⟨ob, hob, filed_of_reach hob hstep⟩
  have hfiled : ∀ b ∈ visited, Filed σ c b.span b.owner b.row := by
    intro b hb
    obtain ⟨ob, -, hspan, -, hfiled⟩ := hfrom b hb
    rwa [hspan]
  have hbase : ∃ b ∈ visited, StandsFor c ob.span ob.owner ob.row b := by
    obtain ⟨b, hb, hkey⟩ := hwork ob hob
    obtain ⟨hspan, howner, hrow⟩ : b.span = ob.span ∧ b.owner = ob.owner ∧
        c.resolveCapRow b.row = c.resolveCapRow ob.row := by
      simpa [obligationKey] using hkey
    exact ⟨b, hb, hspan, .inr ⟨hrow, .inl howner⟩⟩
  obtain ⟨owner', b, hb, hspan, hres⟩ :=
    standsFor_chain hc hfiled hnext hchain hlinks (.base ob hob rfl) hbase
  obtain ⟨d, hd⟩ := List.exists_mem_of_ne_nil _ hdenied
  -- The visited obligation is judged on at least what the chain leads to.
  have hjudged : d ∈ deniedCapsUsed b.denied (c.judgedBits b) := by
    obtain ⟨ob', hob', hspan', hdenied', -⟩ := hfrom b hb
    have hsame : b.denied = ob.denied :=
      hdenied'.trans (hc.denied ob' hob' ob hob (hspan'.symm.trans hspan))
    refine mem_deniedCapsUsed_judgedBits ?_
    rw [hsame]
    rcases hres with hunknown | ⟨heq, -⟩
    · rw [hunknown]
      exact deniedCapsUsed_all hd
    · rwa [heq]
  have hback : Verdict.Backed ⟨[], []⟩ := by
    intro p hp
    cases hp
  obtain ⟨hbacked, -, hreported⟩ := judge_foldl c visited hback
  obtain ⟨v, hv, hvspan⟩ := hbacked _ (hreported b hb d hjudged)
  exact ⟨v, hv, hvspan.trans hspan⟩

/-- The verdict always comes to an end. It reports every chain of a state whose references settle
within sixteen rounds, if the loop loses no chain there. -/
theorem settleDenies_complete (σ : CapEngine) :
    ∃ out, SettlesTo σ out ∧ (roundsNeeded σ.instantiations σ.taken ≤ 16 →
      FollowsChains σ σ.completion → ReportsEveryChain σ out) := by
  obtain ⟨out, fuel, hsettle⟩ := exists_settlesTo σ
  refine ⟨out, ⟨fuel, hsettle⟩, fun hrounds hc ob hob chain hchain hlinks hdenied => ?_⟩
  have halike := alike_completion hrounds
  have hbase : σ.denyObligations ≠ [] := List.ne_nil_of_mem hob
  have hout := hsettle fuel (Nat.le_refl fuel)
  rw [settleDenies, if_neg hbase, if_neg hbase] at hout
  rw [← halike.instantiateAlong, ← halike.resolveCapRow] at hdenied
  split at hout
  · cases hout
  · rename_i verdict hloop
    obtain ⟨v, hv, hspan⟩ := settleLoop_reports (halike.followsChains hc) hloop hob hchain hlinks
      hdenied
    obtain rfl : verdict.out.mergeSort sourceOrder = out := by
      simpa using congrArg (Option.map Prod.fst) hout
    exact ⟨v, List.mem_mergeSort.mpr hv, hspan⟩

/-- A declaration `3` with the row parameter `0` and a block that calls it, and a reference that
passes a function with the authority `io`. -/
def passingIo : CapEngine :=
  run [.fresh, .fresh, .fresh, .fresh, .bind 2 (.closed {.io}), .beginEffects {0}, .owner 3,
    .deny ["io"] (.var 0) ⟨0, 10, 20⟩, .endEffects (some 3),
    .reference 3 [⟨0, 2⟩].toAList ⟨0, 30, 35⟩]

theorem passingIo_reported : ∃ out, SettlesTo passingIo out ∧ ∃ v ∈ out, v.span = ⟨0, 10, 20⟩ := by
  obtain ⟨out, hsettle, hreports⟩ := settleDenies_complete passingIo
  have hrounds : roundsNeeded passingIo.instantiations passingIo.taken ≤ 16 :=
    roundsNeeded_le_iff.mpr ⟨1, by decide, (fixedPoint_iff _ _).mpr (by decide)⟩
  have halike := alike_completion hrounds
  have hobligations : passingIo.denyObligations =
      [⟨["io"], .var 0, ⟨0, 10, 20⟩, some 3, none⟩] := by decide
  have howners : ∀ r ∈ passingIo.instantiations, r.owner = none := by decide
  -- Nothing is filed in a declaration but the block itself.
  have hfiled : ∀ span own row, Filed passingIo passingIo.completion span (some own) row →
      row = .var 0 := by
    intro span own row h
    generalize hown : some own = owner at h
    cases h with
    | base ob hob hs =>
      rw [hobligations, List.mem_singleton] at hob
      rw [hob]
    | along r hr _ =>
      rw [howners r hr] at hown
      cases hown
  have hopen : passingIo.completion.dependsOnUnbound (.var 0) = true := by
    rw [← halike.dependsOnUnbound]
    decide
  have hc : FollowsChains passingIo passingIo.completion := by
    refine ⟨?_, ?_, ?_⟩
    · intro ob hob ob' hob' _
      rw [hobligations, List.mem_singleton] at hob hob'
      rw [hob, hob']
    · intro span own row row' hrow hrow' _ _ r _ _
      rw [hfiled _ _ _ hrow, hfiled _ _ _ hrow']
    · intro span own row hrow _ hstop
      rw [hfiled _ _ _ hrow, hopen] at hstop
      cases hstop
  refine ⟨out, hsettle, ?_⟩
  refine hreports hrounds hc ⟨["io"], .var 0, ⟨0, 10, 20⟩, some 3, none⟩ ?_
    passingIo.instantiations (fun _ h => h) ?_ ?_
  · rw [hobligations]
    exact List.mem_singleton_self _
  · decide
  · rw [← halike.instantiateAlong, ← halike.resolveCapRow]
    decide

/-- The same declaration, but the parameter `0` and the variable `1` are bound to each other. -/
def cyclicParameter : CapEngine :=
  run [.fresh, .fresh, .fresh, .fresh, .bind 0 (.var 1), .bind 1 (.var 0),
    .bind 2 (.closed {.io}), .beginEffects {0}, .owner 3, .deny ["io"] (.var 0) ⟨0, 10, 20⟩,
    .endEffects (some 3), .reference 3 [⟨0, 2⟩].toAList ⟨0, 30, 35⟩]

/-- The block is judged on the cycle alone. The row has no unbound variable, so the reference that
passes the authority `io` is never looked at. -/
theorem cyclic_parameter_is_not_reported :
    ¬ ∃ out, SettlesTo cyclicParameter out ∧ ReportsEveryChain cyclicParameter out := by
  rintro ⟨out, ⟨fuel, hsettle⟩, hreports⟩
  have hrounds : roundsNeeded cyclicParameter.instantiations cyclicParameter.taken ≤ 16 :=
    roundsNeeded_le_iff.mpr ⟨1, by decide, (fixedPoint_iff _ _).mpr (by decide)⟩
  have halike := alike_completion hrounds
  have hloop : settleLoop 1 cyclicParameter.completed cyclicParameter.instantiations
      cyclicParameter.denyObligations = some ⟨[], []⟩ := by
    decide
  have hbase : cyclicParameter.denyObligations ≠ [] := by decide
  obtain rfl : out = [] := by
    have hout := hsettle (fuel + 1) (Nat.le_succ fuel)
    have hloop' : settleLoop (fuel + 1) cyclicParameter.completed cyclicParameter.instantiations
        cyclicParameter.denyObligations = some ⟨[], []⟩ :=
      Worklist.loop_mono (Nat.le_add_left 1 fuel) hloop
    rw [settleDenies, if_neg hbase, if_neg hbase, hloop'] at hout
    simpa using congrArg (Option.map Prod.fst) hout.symm
  obtain ⟨v, hv, -⟩ := hreports ⟨["io"], .var 0, ⟨0, 10, 20⟩, some 3, none⟩ (by decide)
    cyclicParameter.instantiations (fun _ h => h) (by decide) (by
      rw [← halike.instantiateAlong, ← halike.resolveCapRow]
      decide)
  cases hv

end Kryos.Types.CapEngine
