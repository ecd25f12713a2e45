import Refix.Engine.Times
import Refix.Group.Partition

/-!
# Scopes in Python

A Python scope holds its message and two bounds, and rebuilds the scope of Rust at every call,
expecting that the bounds fit. A program reads groups in groups of groups, each with a table and
known tags of its choice: wherever this leads, the bounds do fit, and Python reads the scope that
the same reads lead to in Rust.
-/

namespace Refix.Message

open Refix.Foundation

/-! ## Reading groups in groups -/

/-- One step into a group: the table and known tags it is read with, and an instance's index. -/
structure GroupRead where
  table : OwnedGroupTable
  known : KnownTags
  index : ℕ

namespace Scope

/-- The scope that the reads lead to, one in another. -/
def follow (scope : Scope) : List GroupRead → Except InvalidValue (Option Scope)
  | [] => .ok (some scope)
  | read :: rest =>
    match scope.getGroup read.table read.known with
    | .error failure => .error failure
    | .ok none => .ok none
    | .ok (some group) =>
      match group.instances[read.index]? with
      | none => .ok none
      | some inner => inner.follow rest

variable {L : Type} [Layout L] {scope inner : Scope} {table : L} {known : KnownTags}

theorem scope_fits (message : RawMessage) : message.scope.Fits := ⟨Nat.zero_le _, le_rfl⟩

theorem Fits.scopeBetween_eq (h : scope.Fits) :
    scope.message.scopeBetween scope.start scope.stop = some scope := by
  rw [RawMessage.scopeBetween, if_pos ⟨h.start_le, h.stop_le⟩]

/-- Where an instance of a group stands in the scope the group is read from. -/
structure Within (inner scope : Scope) : Prop where
  message_eq : inner.message = scope.message
  /-- The count field lies in between. -/
  start_lt : scope.start < inner.start
  nonempty : inner.start < inner.stop
  stop_le : inner.stop ≤ scope.stop

theorem Within.fits (h : inner.Within scope) (hfits : scope.Fits) : inner.Fits where
  start_le := h.nonempty.le
  stop_le := by
    rw [h.message_eq]
    exact h.stop_le.trans hfits.stop_le

end Scope

/-- Instances one behind the other all lie between the first slot and the last. -/
theorem Instances.mem {L : Type} [Layout L] {scope inner : Scope} {table : L} {known : KnownTags}
    {instances : List Scope} {first stop : ℕ}
    (h : Instances scope known table instances first stop) (hinner : inner ∈ instances) :
    inner.message = scope.message ∧ first ≤ inner.start ∧ inner.start < inner.stop ∧
      inner.stop ≤ stop := by
  induction h with
  | nil => cases hinner
  | cons hinstance hrest ih =>
    have hlt := hinstance.nonempty
    rcases List.mem_cons.mp hinner with rfl | hinner
    · exact ⟨rfl, le_rfl, hlt, hrest.le⟩
    · obtain ⟨hmessage, hfirst, hnonempty, hstop⟩ := ih hinner
      exact ⟨hmessage, hlt.le.trans hfirst, hnonempty, hstop⟩

/-- Every instance that is read lies in the scope, behind the count field. -/
theorem Scope.within_of_getGroup {L : Type} [Layout L] {scope inner : Scope} {table : L}
    {known : KnownTags} {group : Group} (h : scope.getGroup table known = .ok (some group))
    (hinner : inner ∈ group.instances) : inner.Within scope := by
  rw [Scope.getGroup, Scope.walkGroup] at h
  cases hfind : scope.find (Layout.countTag table) scope.start with
  | none =>
    rw [hfind] at h
    cases h
  | some found =>
    obtain ⟨countSlot, value⟩ := found
    obtain ⟨hle, hlt, -, -⟩ := Scope.of_find_eq_some hfind
    have hpartition := walk_partitioned scope known table hlt
    rw [hfind, Option.map_some] at h
    dsimp only at h
    split at h
    · cases h
    · cases h
      rcases hpartition.instances with ⟨hnil, -⟩ | ⟨first, hfirst, -, hinstances⟩
      · -- there is no instance to read
        rw [hnil] at hinner
        cases hinner
      · obtain ⟨hmessage, hstart, hnonempty, hstop⟩ := hinstances.mem hinner
        have hcount := hfirst.lt
        exact ⟨hmessage, by omega, hnonempty, hstop.trans hpartition.le⟩

/-- Where the scope stands that a number of reads lead to. -/
structure Scope.Reaches (scope inner : Scope) (reads : ℕ) : Prop where
  message_eq : inner.message = scope.message
  fits : inner.Fits
  /-- Every read passes at least the count field. -/
  start_add_le : scope.start + reads ≤ inner.start
  stop_le : inner.stop ≤ scope.stop
  nonempty : inner = scope ∨ inner.start < inner.stop

theorem Scope.Reaches.of_within {scope middle inner : Scope} {reads : ℕ}
    (h : middle.Reaches inner reads) (hwithin : middle.Within scope) :
    scope.Reaches inner (reads + 1) where
  message_eq := h.message_eq.trans hwithin.message_eq
  fits := h.fits
  start_add_le := by
    have hstart := h.start_add_le
    have hlt := hwithin.start_lt
    omega
  stop_le := h.stop_le.trans hwithin.stop_le
  nonempty := by
    rcases h.nonempty with rfl | hlt
    · exact Or.inr hwithin.nonempty
    · exact Or.inr hlt

end Refix.Message

namespace Refix.Engine

open Refix.Message (RawMessage Scope Tag Bytes GetFailure GroupRead InvalidValue KnownTags
  OwnedGroupTable)

/-! ## Python's scopes -/

/-- One group instance: its message and its bounds. -/
structure PyScope where
  message : RawMessage
  start : ℕ
  stop : ℕ
  deriving DecidableEq, Repr

/-- What fields are read from in Python. -/
inductive Readable where
  | message (raw : RawMessage)
  | part (bounds : PyScope)
  deriving DecidableEq, Repr

/-- The scope in Rust, expecting that a scope's bounds come from its own message. -/
def PyScope.scope (scope : PyScope) : Except GetFailure Scope :=
  match scope.message.scopeBetween scope.start scope.stop with
  | some rebuilt => .ok rebuilt
  | none => .error .panic

namespace Readable

def scope : Readable → Except GetFailure Scope
  | .message raw => .ok raw.scope
  | .part bounds => bounds.scope

/-- The message that an instance holds on to. -/
def held : Readable → RawMessage
  | .message raw => raw
  | .part bounds => bounds.message

def get (readable : Readable) (tag : Tag) : Except GetFailure (Option Bytes) := do
  let scope ← readable.scope
  return scope.get tag

/-- The group `table` describes as one scope per instance, each holding the message. -/
def getGroup (readable : Readable) (table : OwnedGroupTable) (known : KnownTags) :
    Except GetFailure (Option (List PyScope)) := do
  let scope ← readable.scope
  match scope.getGroup table known with
  | .error failure => throw (.invalidValue failure.tag)
  | .ok none => return none
  | .ok (some group) =>
    return some (group.instances.map fun inner => ⟨readable.held, inner.start, inner.stop⟩)

/-- What the reads lead to, one in another. -/
def follow (readable : Readable) : List GroupRead → Except GetFailure (Option Readable)
  | [] => .ok (some readable)
  | read :: rest =>
    match readable.getGroup read.table read.known with
    | .error failure => .error failure
    | .ok none => .ok none
    | .ok (some scopes) =>
      match scopes[read.index]? with
      | none => .ok none
      | some inner => (Readable.part inner).follow rest

end Readable

/-! ## Both read the same -/

/-- What Python is left with after some reads, beside what Rust is. -/
inductive Mirrors : Except GetFailure (Option Readable) → Except InvalidValue (Option Scope) → Prop
  | invalid {tag : Tag} : Mirrors (.error (.invalidValue tag)) (.error ⟨tag⟩)
  | absent : Mirrors (.ok none) (.ok none)
  | scope {readable : Readable} {scope : Scope} (h : readable.scope = .ok scope) :
      Mirrors (.ok (some readable)) (.ok (some scope))

/-- The bounds of a scope that fits rebuild it. -/
theorem PyScope.scope_eq {scope : Scope} (h : scope.Fits) :
    PyScope.scope ⟨scope.message, scope.start, scope.stop⟩ = .ok scope := by
  simp only [PyScope.scope, h.scopeBetween_eq]

theorem Readable.held_eq {readable : Readable} {scope : Scope} (h : readable.scope = .ok scope) :
    readable.held = scope.message := by
  cases readable with
  | message raw =>
    cases h
    rfl
  | part bounds =>
    rw [Readable.scope, PyScope.scope, RawMessage.scopeBetween] at h
    split at h
    · next hrebuilt =>
      split at hrebuilt
      · cases hrebuilt
        cases h
        rfl
      · cases hrebuilt
    · cases h

/-- Python finds the fields that Rust finds in the same scope. -/
theorem Readable.get_eq {readable : Readable} {scope : Scope} (h : readable.scope = .ok scope)
    (tag : Tag) : readable.get tag = .ok (scope.get tag) := by
  simp only [Readable.get, h]
  rfl

/-- From a scope that fits, however Python holds it, reads lead to a scope that fits. -/
theorem mirrors_follow (reads : List GroupRead) {readable : Readable} {scope : Scope}
    (hfits : scope.Fits) (hscope : readable.scope = .ok scope) :
    Mirrors (readable.follow reads) (scope.follow reads) ∧
      ∀ inner, scope.follow reads = .ok (some inner) → scope.Reaches inner reads.length := by
  induction reads generalizing readable scope with
  | nil =>
    refine ⟨.scope hscope, ?_⟩
    intro inner hinner
    cases hinner
    exact ⟨rfl, hfits, le_rfl, le_rfl, Or.inl rfl⟩
  | cons read rest ih =>
    -- Both read the group in the same scope; each way that it can end is looked at in turn.
    have hheld := Readable.held_eq hscope
    simp only [Readable.follow, Scope.follow, Readable.getGroup, hscope, Foundation.ok_bind, hheld]
    cases hgroup : scope.getGroup read.table read.known with
    | error failure =>
      refine ⟨.invalid, ?_⟩
      intro inner hinner
      cases hinner
    | ok found =>
      cases found with
      | none =>
        refine ⟨.absent, ?_⟩
        intro inner hinner
        cases hinner
      | some group =>
        simp only [pure, Except.pure, List.getElem?_map]
        cases hget : group.instances[read.index]? with
        | none =>
          refine ⟨.absent, ?_⟩
          intro inner hinner
          cases hinner
        | some middle =>
          have hwithin := Scope.within_of_getGroup hgroup (List.mem_of_getElem? hget)
          have hmiddle := hwithin.fits hfits
          -- Python keeps the bounds only, and the scope that is rebuilt from them is the one Rust
          -- goes on with.
          have hrebuilt : (Readable.part ⟨scope.message, middle.start, middle.stop⟩).scope =
              .ok middle := hwithin.message_eq ▸ PyScope.scope_eq hmiddle
          obtain ⟨hmirrors, hreaches⟩ := ih hmiddle hrebuilt
          refine ⟨hmirrors, ?_⟩
          intro inner hinner
          exact (hreaches inner hinner).of_within hwithin

/-- **Python reads the scopes that Rust reads**, wherever reading groups in groups leads: the
bounds it holds are those of a scope of the message, in which it finds the fields that Rust finds,
the reads fail where they fail in Rust, and they never lead further than the message has fields. -/
theorem scopes_follow (message : RawMessage) (reads : List GroupRead) :
    Mirrors ((Readable.message message).follow reads) (message.scope.follow reads) ∧
      (∀ inner, message.scope.follow reads = .ok (some inner) →
        message.scope.Reaches inner reads.length) ∧
      ∀ readable, (Readable.message message).follow reads = .ok (some readable) →
        ∃ inner, message.scope.follow reads = .ok (some inner) ∧
          ∀ tag, readable.get tag = .ok (inner.get tag) := by
  have hscope : (Readable.message message).scope = .ok message.scope := rfl
  obtain ⟨hmirrors, hreaches⟩ := mirrors_follow reads (Scope.scope_fits message) hscope
  refine ⟨hmirrors, hreaches, ?_⟩
  intro readable hreadable
  rw [hreadable] at hmirrors
  generalize hresult : message.scope.follow reads = result at hmirrors
  cases hmirrors with
  | scope hscope => exact ⟨_, rfl, Readable.get_eq hscope⟩

end Refix.Engine
