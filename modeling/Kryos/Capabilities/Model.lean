import Mathlib.Data.Finset.Lattice.Basic
import Mathlib.Data.Fintype.Basic

/-!
# Capabilities

The capabilities a scope can hold. `all` grants every capability, a coarse family grants its
sub-capabilities, and nothing grants upwards or sideways.
-/

namespace Kryos.Capabilities

inductive Capability where
  | net | netHttp | netTcp
  | io | fsRead | fsWrite
  | ffi | compute | crypto | process | env | term | db | time
  | all
deriving DecidableEq, Repr

namespace Capability

instance : Fintype Capability where
  elems := {net, netHttp, netTcp, io, fsRead, fsWrite, ffi, compute, crypto, process, env, term,
    db, time, all}
  complete := by intro c; cases c <;> decide

/-- A capability by its name. Blanks inside the name and its case do not matter. -/
def fromStr (s : String) : Option Capability :=
  match String.ofList ((s.toList.filter fun c => !c.isWhitespace).map Char.toLower) with
  | "net" => some net
  | "net:http" => some netHttp
  | "net:tcp" => some netTcp
  | "io" | "fs" => some io
  | "fs:read" => some fsRead
  | "fs:write" => some fsWrite
  | "ffi" => some ffi
  | "compute" => some compute
  | "crypto" => some crypto
  | "process" => some process
  | "env" => some env
  | "term" => some term
  | "db" => some db
  | "time" => some time
  | "all" => some all
  | _ => none

/-- Holding `c` is sufficient for a required capability. -/
def satisfies (c required : Capability) : Bool :=
  if c = all ∨ c = required then true
  else
    match c, required with
    | net, netHttp | net, netTcp | io, fsRead | io, fsWrite => true
    | _, _ => false

theorem satisfies_refl (c : Capability) : c.satisfies c := by
  simp [satisfies]

/-- The two share some access. -/
def overlaps (c other : Capability) : Bool := c.satisfies other || other.satisfies c

/-- What shares access with a part of `c` shares it with `c`. -/
theorem overlaps_of_satisfies {c required denied : Capability} (h : c.satisfies required)
    (hr : required.overlaps denied) : c.overlaps denied := by
  revert c required denied
  decide

def display : Capability → String
  | net => "net"
  | netHttp => "net:http"
  | netTcp => "net:tcp"
  | io => "io"
  | fsRead => "fs:read"
  | fsWrite => "fs:write"
  | ffi => "ffi"
  | compute => "compute"
  | crypto => "crypto"
  | process => "process"
  | env => "env"
  | term => "term"
  | db => "db"
  | time => "time"
  | all => "all"

/-- The capabilities in the order of their names. -/
def byName : List Capability :=
  [all, compute, crypto, db, env, ffi, fsRead, fsWrite, io, net, netHttp, netTcp, process, term,
    time]

end Capability

abbrev CapabilitySet := Finset Capability

/-- The set grants a required capability. -/
def CapabilitySet.satisfiesRequired (caps : CapabilitySet) (required : Capability) : Bool :=
  decide (∃ c ∈ caps, c.satisfies required)

theorem CapabilitySet.satisfiesRequired_mono {caps caps' : CapabilitySet} (h : caps ⊆ caps')
    {required : Capability} (hr : CapabilitySet.satisfiesRequired caps required) :
    CapabilitySet.satisfiesRequired caps' required := by
  simp only [satisfiesRequired, decide_eq_true_eq] at hr ⊢
  obtain ⟨c, hc, hs⟩ := hr
  exact ⟨c, h hc, hs⟩

namespace CapabilitySet

def has (caps : CapabilitySet) (cap : Capability) : Bool :=
  decide (Capability.all ∈ caps ∨ cap ∈ caps)

/-- Every capability of the set is granted by the other. -/
def isSubsetOf (caps other : CapabilitySet) : Bool :=
  decide (∀ c ∈ caps, satisfiesRequired other c)

/-- What the set has and the other does not grant, by name. -/
def excessOver (caps other : CapabilitySet) : List Capability :=
  Capability.byName.filter fun c => c ∈ caps && !satisfiesRequired other c

/-- The set without what overlaps a denied capability. -/
def without (caps : CapabilitySet) (denied : List Capability) : CapabilitySet :=
  caps.filter fun c => ¬denied.any fun d => c.overlaps d

theorem without_subset (caps : CapabilitySet) (denied : List Capability) :
    without caps denied ⊆ caps := Finset.filter_subset _ _

/-- What a narrowed set grants shares no access with what it was narrowed by. -/
theorem not_overlaps_of_without {caps : CapabilitySet} {denied : List Capability}
    {required : Capability} (h : satisfiesRequired (without caps denied) required)
    {d : Capability} (hd : d ∈ denied) : required.overlaps d = false := by
  obtain ⟨c, hc, hs⟩ := of_decide_eq_true h
  have hno := (Finset.mem_filter.mp hc).2
  by_contra hover
  have hcd := Capability.overlaps_of_satisfies hs (eq_true_of_ne_false hover)
  exact hno (List.any_eq_true.mpr ⟨d, hd, hcd⟩)

end CapabilitySet

end Kryos.Capabilities
