import Kryos.Lib.KeyedTable
import Kryos.Types.MethodHistory

/-!
# Looking up a method

A type has the methods that its impl blocks write, and the defaults of the traits that it
implements. The table that registration builds is right about them if a lookup finds the method of
that name, whatever the order of the table.

## Main results

* `MethodTable.right_iff_held` — what the table has to hold
* `MethodTable.lookup_right_iff` — the sequences after which it holds that
* `MethodTable.two_blocks_counterexample` — of two impl blocks of a type only the last one counts
-/

namespace Kryos.Types.MethodTable

variable {r : Resolver} {es : List Event} {typeName methodName : String}

/-! ## The methods of a type -/

/-- An impl block of that type and trait writes the method. -/
def Writes (es : List Event) (key : Key) (methodName : String) : Prop :=
  ∃ b, .impl b ∈ es ∧ b.key = key ∧ methodName ∈ b.written.map FunctionSig.name

/-- The type implements a trait that supplies the method as a default. -/
structure DefaultOf (r : Resolver) (es : List Event) (typeName traitName : String)
    (default : FunctionSig) : Prop where
  implemented : ∃ b, .impl b ∈ es ∧ b.key = (typeName, some traitName)
  supplied : ∃ methods, .trait traitName methods ∈ es ∧ (default, true) ∈ methods
  notWritten : ¬ Writes es (typeName, some traitName) default.name

/-- `sig` is a method of the type: an impl block writes it, or a trait supplies it. -/
inductive Supplied (r : Resolver) (es : List Event) (typeName : String) : FunctionSig → Prop where
  | written {b : Block} {sig : FunctionSig} (hb : .impl b ∈ es) (htarget : b.target = typeName)
      (hsig : sig ∈ b.written) : Supplied r es typeName sig
  | default {traitName : String} {sig : FunctionSig} (h : DefaultOf r es typeName traitName sig) :
      Supplied r es typeName (rewriteSelf (r.targetTy typeName) sig)

/-- Lookups in the table return the methods of the types. -/
structure Right (r : Resolver) (es : List Event) (impls : List Entry) : Prop where
  none_iff : ∀ entries, entries.Perm impls → ∀ typeName methodName,
    lookupMethod entries typeName methodName = none ↔
      ∀ sig, Supplied r es typeName sig → sig.name ≠ methodName
  some : ∀ entries, entries.Perm impls → ∀ typeName methodName sig,
    lookupMethod entries typeName methodName = some sig →
      ∀ sig', (Supplied r es typeName sig' ∧ sig'.name = methodName) ↔ sig' = sig
  same : ∀ entries entries', entries.Perm impls → entries'.Perm impls →
    ∀ typeName methodName,
      lookupMethod entries typeName methodName = lookupMethod entries' typeName methodName

/-! ## What a lookup finds -/

variable {sig : FunctionSig}

theorem name_of_find {sigs : List FunctionSig}
    (h : sigs.find? (fun s => s.name = methodName) = some sig) : sig.name = methodName := by
  simpa using List.find?_some h

/-- The table holds the method for the type. -/
def Held (impls : List Entry) (typeName : String) (sig : FunctionSig) : Prop :=
  ∃ e ∈ impls, e.1.1 = typeName ∧ sig ∈ e.2

theorem held_of_lookupMethod {entries impls : List Entry} (hperm : entries.Perm impls)
    (h : lookupMethod entries typeName methodName = some sig) :
    Held impls typeName sig ∧ sig.name = methodName := by
  obtain ⟨e, he, hsome⟩ := List.exists_of_findSome?_eq_some h
  split_ifs at hsome with htype
  exact ⟨⟨e, hperm.mem_iff.mp he, htype, List.mem_of_find?_eq_some hsome⟩,
    name_of_find hsome⟩

theorem lookupMethod_isSome {entries impls : List Entry} (hperm : entries.Perm impls)
    (h : Held impls typeName sig) : ∃ sig', lookupMethod entries typeName sig.name = some sig' := by
  obtain ⟨e, he, htype, hsig⟩ := h
  rw [← Option.isSome_iff_exists, lookupMethod, List.findSome?_isSome_iff]
  refine ⟨e, hperm.mem_iff.mpr he, ?_⟩
  rw [if_pos htype, List.find?_isSome]
  exact ⟨sig, hsig, decide_eq_true rfl⟩

/-- Two methods of one name in one entry are one method. -/
def EntryNames (impls : List Entry) : Prop :=
  ∀ e ∈ impls, (e.2.map FunctionSig.name).Nodup

/-- Whatever the table holds is found in some order. -/
theorem exists_lookupMethod_eq {impls : List Entry} (hnames : EntryNames impls)
    (h : Held impls typeName sig) :
    ∃ entries, entries.Perm impls ∧ lookupMethod entries typeName sig.name = some sig := by
  obtain ⟨e, he, htype, hsig⟩ := h
  obtain ⟨before, after, rfl⟩ := List.append_of_mem he
  refine ⟨e :: (before ++ after), (List.perm_middle).symm, ?_⟩
  have hfind : e.2.find? (fun s => s.name = sig.name) = some sig := by
    obtain ⟨s, hs⟩ : ∃ s, e.2.find? (fun s => s.name = sig.name) = some s := by
      rw [← Option.isSome_iff_exists, List.find?_isSome]
      exact ⟨sig, hsig, decide_eq_true rfl⟩
    have heq := List.inj_on_of_nodup_map (hnames e he) (List.mem_of_find?_eq_some hs) hsig
      (name_of_find hs)
    rw [hs, heq]
  rw [lookupMethod, List.findSome?_cons, if_pos htype, hfind]

/-- The table is right if it holds just the methods of the types, and none twice. -/
theorem right_iff_held {impls : List Entry} (hnames : EntryNames impls) :
    Right r es impls ↔ (∀ typeName sig, Held impls typeName sig ↔ Supplied r es typeName sig) ∧
      ∀ typeName sig sig', Held impls typeName sig → Held impls typeName sig' →
        sig.name = sig'.name → sig = sig' := by
  constructor
  · intro h
    have hsupplied : ∀ typeName sig, Held impls typeName sig → Supplied r es typeName sig := by
      intro typeName sig hheld
      obtain ⟨entries, hperm, hlookup⟩ := exists_lookupMethod_eq hnames hheld
      exact ((h.some entries hperm _ _ _ hlookup sig).mpr rfl).1
    refine ⟨fun typeName sig => ⟨hsupplied typeName sig, fun hsig => ?_⟩, ?_⟩
    · cases hlookup : lookupMethod impls typeName sig.name with
      | none => exact absurd rfl ((h.none_iff impls (.refl _) _ _).mp hlookup sig hsig)
      | some found =>
        rw [(h.some impls (.refl _) _ _ _ hlookup sig).mp ⟨hsig, rfl⟩]
        exact (held_of_lookupMethod (.refl _) hlookup).1
    · intro typeName sig sig' hheld hheld' hname
      obtain ⟨entries, hperm, hlookup⟩ := exists_lookupMethod_eq hnames hheld
      exact ((h.some entries hperm _ _ _ hlookup sig').mp
        ⟨hsupplied typeName sig' hheld', hname.symm⟩).symm
  · rintro ⟨hheld, hunique⟩
    have hsome : ∀ entries, entries.Perm impls → ∀ typeName methodName sig,
        lookupMethod entries typeName methodName = some sig →
          ∀ sig', (Supplied r es typeName sig' ∧ sig'.name = methodName) ↔ sig' = sig := by
      intro entries hperm typeName methodName sig hlookup sig'
      obtain ⟨hsig, hname⟩ := held_of_lookupMethod hperm hlookup
      constructor
      · rintro ⟨hsig', hname'⟩
        exact hunique typeName sig' sig ((hheld _ _).mpr hsig') hsig (hname'.trans hname.symm)
      · rintro rfl
        exact ⟨(hheld _ _).mp hsig, hname⟩
    have hnone : ∀ entries, entries.Perm impls → ∀ typeName methodName,
        lookupMethod entries typeName methodName = none ↔
          ∀ sig, Supplied r es typeName sig → sig.name ≠ methodName := by
      intro entries hperm typeName methodName
      constructor
      · rintro hlookup sig hsig rfl
        obtain ⟨found, hfound⟩ := lookupMethod_isSome hperm ((hheld _ _).mpr hsig)
        rw [hlookup] at hfound
        cases hfound
      · intro h
        by_contra hne
        obtain ⟨sig, hlookup⟩ := Option.ne_none_iff_exists'.mp hne
        obtain ⟨hsig, hname⟩ := held_of_lookupMethod hperm hlookup
        exact h sig ((hheld _ _).mp hsig) hname
    refine ⟨hnone, hsome, fun entries entries' hperm hperm' typeName methodName => ?_⟩
    cases hlookup : lookupMethod entries typeName methodName with
    | none => exact ((hnone _ hperm' _ _).mpr ((hnone _ hperm _ _).mp hlookup)).symm
    | some sig =>
      obtain ⟨hsig, hname⟩ := held_of_lookupMethod hperm hlookup
      obtain ⟨sig', hlookup'⟩ := lookupMethod_isSome hperm' hsig
      rw [hname] at hlookup'
      rw [hlookup', (hsome _ hperm' _ _ _ hlookup' sig).mp ⟨(hheld _ _).mp hsig, hname⟩]

/-! ## What the table holds -/

@[simp] theorem name_rewriteSelf (target : Option Ty) (sig : FunctionSig) :
    (rewriteSelf target sig).name = sig.name := rfl

@[simp] theorem ownCapVar_rewriteSelf (target : Option Ty) (sig : FunctionSig) :
    (rewriteSelf target sig).ownCapVar = sig.ownCapVar := rfl

variable {before : List Event} {b : Block}

theorem mem_inherits_iff :
    sig ∈ inherits r before b ↔ ∃ traitName methods m, b.traitName = some traitName ∧
      inForce before traitName = some methods ∧ m ∈ methods ∧
      m.1.name ∉ b.written.map FunctionSig.name ∧ sig = rewriteSelf (r.targetTy b.target) m.1 := by
  rw [inherits]
  constructor
  · intro h
    split at h
    next methods hbind =>
      obtain ⟨traitName, htrait, hforce⟩ := Option.bind_eq_some_iff.mp hbind
      obtain ⟨s, hs, rfl⟩ := List.mem_map.mp h
      obtain ⟨hmem, hnot⟩ := List.mem_filter.mp hs
      obtain ⟨m, hm, rfl⟩ := List.mem_map.mp hmem
      exact ⟨traitName, methods, m, htrait, hforce, hm, of_decide_eq_true hnot, rfl⟩
    next => cases h
  · rintro ⟨traitName, methods, m, htrait, hforce, hm, hnot, rfl⟩
    rw [htrait, Option.bind_some, hforce]
    refine List.mem_map_of_mem (List.mem_filter.mpr ⟨List.mem_map_of_mem hm, ?_⟩)
    exact decide_eq_true hnot

theorem nodup_gives (hnames : ∀ e ∈ before, (e.declared.map FunctionSig.name).Nodup)
    (hwritten : (b.written.map FunctionSig.name).Nodup) :
    ((gives r before b).map FunctionSig.name).Nodup := by
  rw [gives, List.map_append, List.nodup_append]
  refine ⟨hwritten, ?_, ?_⟩
  · rw [inherits]
    split
    next methods hbind =>
      obtain ⟨traitName, -, hforce⟩ := Option.bind_eq_some_iff.mp hbind
      have htrait := hnames _ (mem_of_inForce hforce)
      rw [inheritedSigs, List.map_map]
      exact (List.filter_sublist.map _).nodup htrait
    next => exact List.nodup_nil
  · rintro name hname name' hname' rfl
    obtain ⟨sig, hsig, rfl⟩ := List.mem_map.mp hname'
    obtain ⟨-, -, m, -, -, -, hnot, rfl⟩ := mem_inherits_iff.mp hsig
    exact hnot hname

theorem Standing.mem (h : Standing es before b) : .impl b ∈ es := by
  obtain ⟨after, rfl, -⟩ := h
  exact List.mem_append_right _ List.mem_cons_self

theorem Standing.mem_of_mem {e : Event} (h : Standing es before b) (he : e ∈ before) : e ∈ es := by
  obtain ⟨after, rfl, -⟩ := h
  exact List.mem_append_left _ he

namespace Represents

variable {env : Env}

theorem held_iff (h : Represents r es env) :
    Held env.impls typeName sig ↔
      ∃ before b, Standing es before b ∧ b.target = typeName ∧ sig ∈ gives r before b := by
  constructor
  · rintro ⟨⟨key, sigs⟩, he, rfl, hsig⟩
    obtain ⟨before, b, hstanding, rfl, rfl⟩ := (h.impls _ _).mp he
    exact ⟨before, b, hstanding, rfl, hsig⟩
  · rintro ⟨before, b, hstanding, rfl, hsig⟩
    exact ⟨(b.key, gives r before b), (h.impls _ _).mpr ⟨before, b, hstanding, rfl, rfl⟩, rfl, hsig⟩

theorem entryNames (h : Represents r es env) : EntryNames env.impls := by
  rintro ⟨key, sigs⟩ he
  obtain ⟨before, b, hstanding, rfl, rfl⟩ := (h.impls _ _).mp he
  exact nodup_gives (fun e he => h.names e (hstanding.mem_of_mem he)) (h.names _ hstanding.mem)

end Represents

/-- Each type and trait with an impl block has a last one. -/
theorem exists_standing (h : .impl b ∈ es) : ∃ before c, Standing es before c ∧ c.key = b.key := by
  induction es using List.reverseRecOn with
  | nil => cases h
  | append_singleton es e ih =>
    by_cases hlast : ∃ c, e = .impl c ∧ c.key = b.key
    · obtain ⟨c, rfl, hkey⟩ := hlast
      exact ⟨es, c, standing_concat_iff.mpr (.inl ⟨rfl, rfl⟩), hkey⟩
    · obtain h | h := List.mem_append.mp h
      · obtain ⟨before, c, hstanding, hkey⟩ := ih h
        refine ⟨before, c, standing_concat_iff.mpr (.inr ⟨hstanding, fun c' hc' heq => ?_⟩), hkey⟩
        exact hlast ⟨c', hc', heq.trans hkey⟩
      · exact absurd ⟨b, (List.mem_singleton.mp h).symm, rfl⟩ hlast

/-- Two last impl blocks of one type and trait are the same. -/
theorem standing_unique {before' : List Event} {b' : Block} (h : Standing es before b)
    (h' : Standing es before' b') (hkey : b.key = b'.key) : before = before' ∧ b = b' := by
  induction es using List.reverseRecOn with
  | nil =>
    obtain ⟨after, heq, -⟩ := h
    exact absurd heq.symm (List.append_ne_nil_of_right_ne_nil _ (List.cons_ne_nil _ _))
  | append_singleton es e ih =>
    obtain ⟨rfl, rfl⟩ | ⟨h, hne⟩ := standing_concat_iff.mp h <;>
      obtain ⟨rfl, heq⟩ | ⟨h', hne'⟩ := standing_concat_iff.mp h'
    · exact ⟨rfl, Event.impl.inj heq⟩
    · exact absurd hkey (hne' b rfl)
    · exact absurd hkey.symm (hne b' heq)
    · exact ih h h'

/-! ## Sequences after which lookups are right -/

/-- What a sequence of declarations has to keep to. -/
structure Sound (r : Resolver) (es : List Event) : Prop where
  /-- a block that writes methods is the last one of its type and trait -/
  writer_last : ∀ before b after, es = before ++ .impl b :: after → b.written ≠ [] →
    ∀ c, .impl c ∈ after → c.key ≠ b.key
  /-- the last blocks of a type for different traits give it different names -/
  names_differ : ∀ before before' b b', Standing es before b → Standing es before' b' →
    b.target = b'.target → b.key ≠ b'.key →
    ∀ sig ∈ gives r before b, ∀ sig' ∈ gives r before' b', sig.name ≠ sig'.name
  /-- a method that the last block of a type and trait does not write has a body in the trait -/
  bodies : ∀ before b traitName methods, Standing es before b → b.traitName = some traitName →
    inForce before traitName = some methods →
    ∀ m ∈ methods, m.1.name ∉ b.written.map FunctionSig.name → m.2 = true
  /-- the last block comes after the declaration of the trait, and before the next one of it -/
  defaults_before : ∀ before b traitName methods m, Standing es before b →
    b.traitName = some traitName → .trait traitName methods ∈ es → (m, true) ∈ methods →
    ¬ Writes es b.key m.name →
    ∃ methods', inForce before traitName = some methods' ∧ (m, true) ∈ methods'

theorem supplied_cases (h : Supplied r es typeName sig) :
    (∃ b, .impl b ∈ es ∧ b.target = typeName ∧ sig ∈ b.written) ∨
      ∃ traitName s, DefaultOf r es typeName traitName s ∧
        sig = rewriteSelf (r.targetTy typeName) s := by
  cases h with
  | written hb htarget hsig => exact .inl ⟨_, hb, htarget, hsig⟩
  | default h => exact .inr ⟨_, _, h, rfl⟩

namespace Represents

variable {env : Env} (h : Represents r es env)

include h

/-- A signature belongs to one declaration. -/
theorem event_unique {e e' : Event} {sig' : FunctionSig} (he : e ∈ es) (he' : e' ∈ es)
    (hsig : sig ∈ e.declared) (hsig' : sig' ∈ e'.declared) (heq : sig.ownCapVar = sig'.ownCapVar) :
    e = e' ∧ sig = sig' := by
  obtain ⟨before, after, hsplit⟩ := List.append_of_mem he
  obtain ⟨before', after', hsplit'⟩ := List.append_of_mem he'
  exact (KeyedTable.owner_unique h.distinct hsplit hsplit' hsig hsig' heq).2

/-- What a block writes is not inherited from a trait. -/
theorem rewriteSelf_not_written {traitName : String} {methods : List (FunctionSig × Bool)}
    {m : FunctionSig × Bool} (target : Option Ty) (hb : .impl b ∈ es)
    (ht : .trait traitName methods ∈ es) (hm : m ∈ methods) :
    rewriteSelf target m.1 ∉ b.written := by
  intro hsig
  have hevent := (h.event_unique hb ht hsig (List.mem_map_of_mem hm)
    (ownCapVar_rewriteSelf target m.1)).1
  cases hevent

/-- A method of a trait belongs to one declaration of a trait. -/
theorem trait_unique {traitName traitName' : String} {methods methods' : List (FunctionSig × Bool)}
    {m m' : FunctionSig × Bool} {target target' : Option Ty}
    (ht : .trait traitName methods ∈ es) (hm : m ∈ methods)
    (ht' : .trait traitName' methods' ∈ es) (hm' : m' ∈ methods')
    (heq : rewriteSelf target m.1 = rewriteSelf target' m'.1) :
    traitName = traitName' ∧ methods = methods' ∧ m = m' := by
  have hown : m.1.ownCapVar = m'.1.ownCapVar := by
    rw [← ownCapVar_rewriteSelf target, heq, ownCapVar_rewriteSelf]
  obtain ⟨hevent, hsig⟩ := h.event_unique ht ht' (List.mem_map_of_mem hm)
    (List.mem_map_of_mem hm') hown
  injection hevent with hname hmethods
  subst hmethods
  have hnames := h.names _ ht
  rw [Event.declared, List.map_map] at hnames
  exact ⟨hname, rfl, List.inj_on_of_nodup_map hnames hm hm' (congrArg FunctionSig.name hsig)⟩

theorem writer_last_of_held
    (hheld : ∀ typeName sig, Held env.impls typeName sig ↔ Supplied r es typeName sig)
    {after : List Event} (hsplit : es = before ++ .impl b :: after) (hwritten : b.written ≠ []) :
    ∀ c, .impl c ∈ after → c.key ≠ b.key := by
  obtain ⟨sig, hsig⟩ := List.exists_mem_of_ne_nil _ hwritten
  have hb : .impl b ∈ es := hsplit ▸ List.mem_append_right _ List.mem_cons_self
  obtain ⟨before', b', hstanding, -, hgives⟩ :=
    h.held_iff.mp ((hheld _ _).mpr (.written hb rfl hsig))
  obtain hgives | hgives := List.mem_append.mp hgives
  · obtain ⟨after', hsplit', hlast⟩ := hstanding
    obtain ⟨rfl, hevent, -⟩ :=
      KeyedTable.owner_unique h.distinct hsplit hsplit' hsig hgives rfl
    cases hevent
    rw [hsplit, List.append_cancel_left_eq, List.cons.injEq] at hsplit'
    rwa [hsplit'.2]
  · obtain ⟨traitName, methods, m, -, hforce, hm, -, rfl⟩ := mem_inherits_iff.mp hgives
    exact absurd hsig (h.rewriteSelf_not_written _ hb
      (hstanding.mem_of_mem (mem_of_inForce hforce)) hm)

theorem key_eq_of_gives {before' : List Event} {b' : Block} (hb : Standing es before b)
    (hb' : Standing es before' b') (htarget : b.target = b'.target) (hsig : sig ∈ gives r before b)
    (hsig' : sig ∈ gives r before' b') : b.key = b'.key := by
  obtain hsig | hsig := List.mem_append.mp hsig <;>
    obtain hsig' | hsig' := List.mem_append.mp hsig'
  · have hevent := (h.event_unique hb.mem hb'.mem hsig hsig' rfl).1
    cases hevent
    rfl
  · obtain ⟨A, methods, m, -, hforce, hm, -, rfl⟩ := mem_inherits_iff.mp hsig'
    exact absurd hsig (h.rewriteSelf_not_written _ hb.mem
      (hb'.mem_of_mem (mem_of_inForce hforce)) hm)
  · obtain ⟨A, methods, m, -, hforce, hm, -, rfl⟩ := mem_inherits_iff.mp hsig
    exact absurd hsig' (h.rewriteSelf_not_written _ hb'.mem
      (hb.mem_of_mem (mem_of_inForce hforce)) hm)
  · obtain ⟨A, methods, m, htrait, hforce, hm, -, rfl⟩ := mem_inherits_iff.mp hsig
    obtain ⟨A', methods', m', htrait', hforce', hm', -, heq⟩ := mem_inherits_iff.mp hsig'
    obtain ⟨rfl, -⟩ := h.trait_unique (hb.mem_of_mem (mem_of_inForce hforce)) hm
      (hb'.mem_of_mem (mem_of_inForce hforce')) hm' heq
    rw [Block.key, Block.key, htarget, htrait, htrait']

theorem sound_of_right (hright : Right r es env.impls) : Sound r es := by
  obtain ⟨hheld, hunique⟩ := (right_iff_held h.entryNames).mp hright
  refine ⟨fun before b after hsplit hwritten => h.writer_last_of_held hheld hsplit hwritten,
    ?names, ?bodies, ?defaults⟩
  case names =>
    intro before before' b b' hb hb' htarget hkey sig hsig sig' hsig' hname
    have heq := hunique b'.target sig sig' (h.held_iff.mpr ⟨before, b, hb, htarget, hsig⟩)
      (h.held_iff.mpr ⟨before', b', hb', rfl, hsig'⟩) hname
    subst heq
    exact hkey (h.key_eq_of_gives hb hb' htarget hsig hsig')
  case bodies =>
    intro before b traitName methods hb htrait hforce m hm hnot
    have hmem := hb.mem_of_mem (mem_of_inForce hforce)
    have hinherits : rewriteSelf (r.targetTy b.target) m.1 ∈ gives r before b :=
      List.mem_append_right _
        (mem_inherits_iff.mpr ⟨traitName, methods, m, htrait, hforce, hm, hnot, rfl⟩)
    obtain ⟨c, hc, -, hsig⟩ | ⟨A, s, hdefault, heq⟩ :=
      supplied_cases ((hheld _ _).mp (h.held_iff.mpr ⟨before, b, hb, rfl, hinherits⟩))
    · exact absurd hsig (h.rewriteSelf_not_written _ hc hmem hm)
    · obtain ⟨methods', ht', hs⟩ := hdefault.supplied
      obtain ⟨-, -, rfl⟩ := h.trait_unique hmem hm ht' hs heq
      rfl
  case defaults =>
    intro before b traitName methods m hb htrait ht hm hnot
    have hkey : b.key = (b.target, some traitName) := by rw [Block.key, htrait]
    rw [hkey] at hnot
    have hsupplied : Supplied r es b.target (rewriteSelf (r.targetTy b.target) m) :=
      .default ⟨⟨b, hb.mem, hkey⟩, ⟨methods, ht, hm⟩, hnot⟩
    obtain ⟨before', b', hb', htarget, hgives⟩ := h.held_iff.mp ((hheld _ _).mpr hsupplied)
    obtain hsig | hsig := List.mem_append.mp hgives
    · exact absurd hsig (h.rewriteSelf_not_written _ hb'.mem ht hm)
    · obtain ⟨A, methods', m', htrait', hforce, hm', -, heq⟩ := mem_inherits_iff.mp hsig
      obtain ⟨rfl, rfl, rfl⟩ := h.trait_unique ht hm
        (hb'.mem_of_mem (mem_of_inForce hforce)) hm' heq
      obtain ⟨rfl, -⟩ := standing_unique hb hb' (by rw [hkey, Block.key, htarget, htrait'])
      exact ⟨methods, hforce, hm⟩

theorem held_iff_supplied (hsound : Sound r es) (typeName : String) (sig : FunctionSig) :
    Held env.impls typeName sig ↔ Supplied r es typeName sig := by
  rw [h.held_iff]
  constructor
  · rintro ⟨before, b, hb, rfl, hgives⟩
    obtain hsig | hsig := List.mem_append.mp hgives
    · exact .written hb.mem rfl hsig
    · obtain ⟨traitName, methods, m, htrait, hforce, hm, hnot, rfl⟩ := mem_inherits_iff.mp hsig
      have hbody := hsound.bodies before b traitName methods hb htrait hforce m hm hnot
      have hkey : b.key = (b.target, some traitName) := by rw [Block.key, htrait]
      refine .default ⟨⟨b, hb.mem, hkey⟩,
        ⟨methods, hb.mem_of_mem (mem_of_inForce hforce), hbody ▸ hm⟩, ?_⟩
      -- a block that writes the method is the last one, which does not write it
      rintro ⟨c, hc, hckey, hwrites⟩
      obtain ⟨beforec, after, hsplit⟩ := List.append_of_mem hc
      have hne : c.written ≠ [] := by
        rintro heq
        rw [heq] at hwrites
        cases hwrites
      have hlast : Standing es beforec c := ⟨after, hsplit, hsound.writer_last _ _ _ hsplit hne⟩
      obtain ⟨-, rfl⟩ := standing_unique hlast hb (hckey.trans hkey.symm)
      exact hnot hwrites
  · intro hsupplied
    obtain ⟨b, hb, rfl, hsig⟩ | ⟨traitName, s, ⟨⟨b, hb, hkey⟩, ⟨methods, ht, hs⟩, hnot⟩, rfl⟩ :=
      supplied_cases hsupplied
    · obtain ⟨before, after, hsplit⟩ := List.append_of_mem hb
      have hlast := hsound.writer_last _ _ _ hsplit (List.ne_nil_of_mem hsig)
      exact ⟨before, b, ⟨after, hsplit, hlast⟩, rfl, List.mem_append_left _ hsig⟩
    · obtain ⟨before, c, hstanding, hckey⟩ := exists_standing hb
      rw [hkey] at hckey
      have htarget : c.target = typeName := congrArg Prod.fst hckey
      have htrait : c.traitName = some traitName := congrArg Prod.snd hckey
      obtain ⟨methods', hforce, hm⟩ := hsound.defaults_before before c traitName methods s
        hstanding htrait ht hs (by rwa [hckey])
      refine ⟨before, c, hstanding, htarget, List.mem_append_right _ ?_⟩
      refine mem_inherits_iff.mpr ⟨traitName, methods', (s, true), htrait, hforce, hm, ?_, ?_⟩
      · exact fun hwrites => hnot ⟨c, hstanding.mem, hckey, hwrites⟩
      · rw [htarget]

theorem right_of_sound (hsound : Sound r es) : Right r es env.impls := by
  refine (right_iff_held h.entryNames).mpr ⟨h.held_iff_supplied hsound, ?_⟩
  intro typeName sig sig' hsig hsig' hname
  obtain ⟨before, b, hb, htarget, hgives⟩ := h.held_iff.mp hsig
  obtain ⟨before', b', hb', htarget', hgives'⟩ := h.held_iff.mp hsig'
  by_cases hkey : b.key = b'.key
  · obtain ⟨rfl, rfl⟩ := standing_unique hb hb' hkey
    refine List.inj_on_of_nodup_map (nodup_gives (fun e he => ?_) ?_) hgives hgives' hname
    · exact h.names e (hb.mem_of_mem he)
    · exact h.names _ hb.mem
  · exact absurd hname (hsound.names_differ before before' b b' hb hb'
      (htarget.trans htarget'.symm) hkey sig hgives sig' hgives')

end Represents

/-- After a sequence of traits and impl blocks that is accepted, lookups return the methods of the
types if and only if the sequence is sound. -/
theorem lookup_right_iff (r : Resolver) (order : Order) (engine : Engine) (items : List Item)
    (haccepted : (registerAll r order (Env.start engine) items).diagnostics = []) :
    Right r (history r items engine) (registerAll r order (Env.start engine) items).impls ↔
      Sound r (history r items engine) := by
  have h := represents_registerAll (represents_start engine) haccepted
  exact ⟨h.sound_of_right, h.right_of_sound⟩

/-! ### Two impl blocks of one type -/

/-- Every type expression stands for `void`. -/
def voidResolver : Resolver :=
  ⟨fun _ => true, fun _ => false, fun _ => 0, fun _ _ _ _ => .prim .void⟩

def listed : Order := ⟨id, fun _ => .refl _⟩

/-- `fn name() {}` -/
def emptyFunction (name : String) : Ast.Decl :=
  .function name [] [] none (some (.mk [] ⟨0, 0, 0⟩)) false false [] [] ⟨0, 0, 0⟩

/-- An impl block of `P` without a trait, with one function. -/
def implBlock (name : String) : Item := .impl "P" none [] [emptyFunction name]

theorem lookup_right_iff_one_block :
    (registerAll voidResolver listed (Env.start ⟨0, 0⟩) [implBlock "first"]).diagnostics = [] ∧
      (Right voidResolver (history voidResolver [implBlock "first"] ⟨0, 0⟩)
          (registerAll voidResolver listed (Env.start ⟨0, 0⟩) [implBlock "first"]).impls ↔
        Sound voidResolver (history voidResolver [implBlock "first"] ⟨0, 0⟩)) :=
  ⟨by decide, lookup_right_iff voidResolver listed ⟨0, 0⟩ [implBlock "first"] (by decide)⟩

/-- `impl P { fn first() {} }` and `impl P { fn second() {} }` are accepted, and `first` is lost. -/
theorem two_blocks_counterexample :
    ¬ ∀ (r : Resolver) (order : Order) (engine : Engine) (items : List Item),
      (registerAll r order (Env.start engine) items).diagnostics = [] →
        Right r (history r items engine) (registerAll r order (Env.start engine) items).impls := by
  intro h
  have hright := h voidResolver listed ⟨0, 0⟩ [implBlock "first", implBlock "second"] (by decide)
  have hnone := (hright.none_iff _ (.refl _) "P" "first").mp (by decide)
  refine hnone ⟨"first", [], [], [], 0, [], .prim .void⟩ ?_ rfl
  exact .written (b := ⟨"P", none, [⟨"first", [], [], [], 0, [], .prim .void⟩]⟩)
    List.mem_cons_self rfl List.mem_cons_self

end Kryos.Types.MethodTable
