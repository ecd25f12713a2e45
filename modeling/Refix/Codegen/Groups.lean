import Mathlib.Data.List.Sort
import Refix.Dictionary.Declared

/-!
# Groups in Generated Code

Which groups get types of their own, and the sorted lists of tags that the generated tables and
known tags hold. A group is identified by the context of its instances, and each is visited
once, where it appears first.
-/

namespace Refix.Codegen

open Refix.Dict
open Refix.Message (Tag)

/-! ## Groups -/

/-- Whether a group gets generated types. Groups declared directly in another group's instance
don't. -/
def isGenerated {n : ℕ} (group : Group n) : Bool :=
  match group.declaredIn with
  | .group _ _ => false
  | _ => true

section Visit

variable {σ : Type} (fields : List Field)

mutual

/-- Visits the groups of `members` at every depth, each once, in order of first appearance:
`enter` before the group's own members and `leave` after them. -/
def visitGroups (enter leave : Group fields.length → σ → σ) :
    List (ResolvedMember fields.length) → σ × List MemberContext → σ × List MemberContext
  | [], state => state
  | member :: members, state =>
    visitGroups enter leave members (visitMember enter leave member state)

def visitMember (enter leave : Group fields.length → σ → σ) :
    ResolvedMember fields.length → σ × List MemberContext → σ × List MemberContext
  | .field _ _, state => state
  | .group countFieldIndex delimiterIndex isRequired declaredIn component members, state =>
    let group : Group fields.length :=
      { countFieldIndex, delimiterIndex, isRequired, declaredIn, component, members }
    let context := group.instanceContext fields
    if context ∈ state.2 then state
    else
      let (groups, seen) :=
        visitGroups enter leave members (enter group state.1, context :: state.2)
      (leave group groups, seen)

end

end Visit

/-- Visits the groups of the header, then of each message, then of the trailer. -/
def visitDictionary {σ : Type} (dictionary : Dictionary)
    (enter leave : Group dictionary.spec.fields.length → σ → σ) (initial : σ) : σ :=
  let visit := visitGroups dictionary.spec.fields enter leave
  let state := visit dictionary.header (initial, [])
  let state := dictionary.messages.foldl (fun state members => visit members state) state
  (visit dictionary.trailer state).1

/-- Every group declaration the header, messages and trailer reach, each once, in order of
first appearance. -/
def declaredGroups (dictionary : Dictionary) : List (Group dictionary.spec.fields.length) :=
  visitDictionary dictionary (fun group groups => groups ++ [group]) (fun _ groups => groups) []

/-! ## Tags -/

/-- The tags a group's instances directly contain, sorted. -/
def memberTags (fields : List Field) (group : Group fields.length) : List Tag :=
  (group.members.map fun member => (fields.get member.firstField).tag).insertionSort (· ≤ ·)

mutual

/-- Every tag in `members` at any depth, group count tags included. -/
def collectTags (fields : List Field) : List (ResolvedMember fields.length) → List Tag → List Tag
  | [], tags => tags
  | member :: members, tags => collectTags fields members (collectMember fields member tags)

def collectMember (fields : List Field) : ResolvedMember fields.length → List Tag → List Tag
  | .field index _, tags => tags ++ [(fields.get index).tag]
  | .group countFieldIndex _ _ _ _ members, tags =>
    collectTags fields members (tags ++ [(fields.get countFieldIndex).tag])

end

/-- Every tag in `members` at any depth, group count tags included, sorted. -/
def knownTags (fields : List Field) (members : List (ResolvedMember fields.length)) : List Tag :=
  (collectTags fields members []).insertionSort (· ≤ ·)

/-- Every tag a message can contain, its envelope's included, sorted. -/
def messageKnownTags (fields : List Field) (members : List (ResolvedMember fields.length))
    (envelope : List Tag) : List Tag :=
  (collectTags fields members envelope).insertionSort (· ≤ ·)

/-! ## The envelope -/

/-- The header or the trailer, each read through a view of its own. -/
inductive Section where
  | header
  | trailer
  deriving DecidableEq, Repr

/-- The context the section's own groups are declared in. -/
def Section.context : Section → MemberContext
  | header => .header
  | trailer => .trailer

/-- The section's members, components expanded in place. -/
def Section.members (dictionary : Dictionary) :
    Section → List (ResolvedMember dictionary.spec.fields.length)
  | header => dictionary.header
  | trailer => dictionary.trailer

/-- Whether a member is a group. -/
def isGroup {n : ℕ} : ResolvedMember n → Bool
  | .field _ _ => false
  | .group _ _ _ _ _ _ => true

/-- The sections a dictionary declares members for, and every tag they hold. -/
structure Envelope where
  sections : List Section
  /-- The sections holding a group. Their views keep the known tags they walk it with. -/
  withGroups : List Section
  tags : List Tag

def Envelope.of (dictionary : Dictionary) : Envelope :=
  let sections := [Section.header, Section.trailer].filter fun s => !(s.members dictionary).isEmpty
  { sections
    withGroups := sections.filter fun s => (s.members dictionary).any isGroup
    tags := knownTags dictionary.spec.fields (dictionary.header ++ dictionary.trailer) }

end Refix.Codegen
