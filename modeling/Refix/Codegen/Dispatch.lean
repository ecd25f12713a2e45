import Refix.Codegen.Literals
import Refix.Codegen.Tables
import Refix.Value.Integer

/-!
# Dispatch

Generated code reads a raw message as the message its MsgType names. The arms of the dispatch name
constants, and these are written as literals of the dictionary's message types. In Rust the first
arm that matches is taken, while in Python the last entry of a key stays in the table. Message
types are unique in a dictionary, so that both languages read every message as the same one.
-/

namespace Refix.Codegen

open Refix.Foundation
open Refix.Dict
open Refix.Message (RawMessage Tag)

/-! ## What is emitted -/

/-- The message a raw message is read as, by its name. -/
inductive Dispatched where
  | message (name : String)
  | unrecognized
  deriving DecidableEq, Repr

def Dispatched.ofArm : Option String → Dispatched
  | some name => .message name
  | none => .unrecognized

@[simp] theorem Dispatched.ofArm_eq_message {arm : Option String} {name : String} :
    ofArm arm = .message name ↔ arm = some name := by
  cases arm <;> simp [ofArm]

@[simp] theorem Dispatched.ofArm_eq_unrecognized {arm : Option String} :
    ofArm arm = .unrecognized ↔ arm = none := by
  cases arm <;> simp [ofArm]

/-- The arms of a dispatch by the names of messages, with the `MSG_TYPE` that each message has. -/
structure Dispatch where
  names : List String
  constants : List (String × List Char)

/-- The literal of the constant that a message's name leads to. -/
def Dispatch.msgType (dispatch : Dispatch) (name : String) : Option (List Char) :=
  (dispatch.constants.find? (·.1 == name)).map (·.2)

/-- The first of the arms whose constant is the value of the first MsgType field. -/
def Dispatch.arm (dispatch : Dispatch) (escaping : Escaping UInt8) (arms : List String)
    (raw : RawMessage) : Option String :=
  (raw.scope.get 35).bind fun value =>
    arms.find? fun name => (dispatch.msgType name).bind escaping.read == some value

/-- A dictionary without messages has no dispatch. -/
def emitDispatch (literal : String → List Char) (dictionary : Dictionary) : Option Dispatch :=
  let names := dictionary.spec.messages.map Message.name
  if names = [] then none
  else some
    { names
      constants := dictionary.spec.messages.map fun message =>
        (message.name, literal message.msgType) }

namespace Rust

def emitDispatch : Dictionary → Option Dispatch := Codegen.emitDispatch byteStrLiteral

/-- A match on the value of MsgType takes the first arm. -/
def fromRaw (dispatch : Dispatch) (raw : RawMessage) : Dispatched :=
  .ofArm (dispatch.arm bytes dispatch.names raw)

end Rust

namespace Python

def emitDispatch : Dictionary → Option Dispatch := Codegen.emitDispatch bytesLiteral

/-- Of the entries of the table under one key the last one stays. -/
def fromRaw (dispatch : Dispatch) (raw : RawMessage) : Dispatched :=
  .ofArm (dispatch.arm bytes dispatch.names.reverse raw)

end Python

/-! ## The message that is named -/

/-- A raw message is read as the message whose type its first MsgType field holds. -/
structure Dispatches (dictionary : Dictionary) (fromRaw : RawMessage → Dispatched) : Prop where
  message : ∀ raw, ∀ message ∈ dictionary.spec.messages,
    fromRaw raw = .message message.name ↔ raw.scope.get 35 = some (utf8 message.msgType)
  unrecognized : ∀ raw, fromRaw raw = .unrecognized ↔
    ∀ message ∈ dictionary.spec.messages, raw.scope.get 35 ≠ some (utf8 message.msgType)

section Arms

variable {dictionary : Dictionary} {literal : String → List Char} {dispatch : Dispatch}

theorem emitDispatch_eq_some (h : Codegen.emitDispatch literal dictionary = some dispatch) :
    dispatch.names = dictionary.spec.messages.map Message.name ∧
      dispatch.constants = dictionary.spec.messages.map fun message =>
        (message.name, literal message.msgType) := by
  simp only [Codegen.emitDispatch] at h
  split at h
  · cases h
  · cases h
    exact ⟨rfl, rfl⟩

/-- The constant of a message is the literal of its type, where messages have names of their own. -/
theorem msgType_eq (h : Codegen.emitDispatch literal dictionary = some dispatch)
    (hnames : (dictionary.spec.messages.map Message.name).Nodup) {message : Message}
    (hmessage : message ∈ dictionary.spec.messages) :
    dispatch.msgType message.name = some (literal message.msgType) := by
  have hfind := find?_key_eq Message.name hnames hmessage
  rw [Dispatch.msgType, (emitDispatch_eq_some h).2, List.find?_map, Option.map_map]
  have hkey : ((fun entry : String × List Char => entry.1 == message.name) ∘
      fun message : Message => (message.name, literal message.msgType)) =
        fun other => other.name == message.name := rfl
  rw [hkey, hfind]
  rfl

/-- Finding an arm, from either end, finds the message of the type. -/
theorem dispatches_of_arms {escaping : Escaping UInt8}
    (h : Codegen.emitDispatch literal dictionary = some dispatch)
    (hread : ∀ value, escaping.read (literal value) = some (utf8 value))
    (hnames : (dictionary.spec.messages.map Message.name).Nodup)
    (htypes : (dictionary.spec.messages.map Message.msgType).Nodup)
    {arms : List String} (harms : arms.Perm dispatch.names) :
    Dispatches dictionary fun raw => .ofArm (dispatch.arm escaping arms raw) := by
  obtain ⟨hmessages, -⟩ := emitDispatch_eq_some h
  have hconstant : ∀ message ∈ dictionary.spec.messages,
      (dispatch.msgType message.name).bind escaping.read = some (utf8 message.msgType) := by
    intro message hmessage
    rw [msgType_eq h hnames hmessage, Option.bind_some, hread]
  have hmem : ∀ name, name ∈ arms ↔ ∃ message ∈ dictionary.spec.messages, message.name = name := by
    intro name
    rw [harms.mem_iff, hmessages, List.mem_map]
  -- at most one arm has a value's constant
  have hunique : ∀ value, ∀ name ∈ arms, ∀ other ∈ arms,
      ((dispatch.msgType name).bind escaping.read == some value) = true →
      ((dispatch.msgType other).bind escaping.read == some value) = true → name = other := by
    intro value name hname other hother hvalue hvalue'
    obtain ⟨message, hmessage, rfl⟩ := (hmem name).mp hname
    obtain ⟨message', hmessage', rfl⟩ := (hmem other).mp hother
    rw [beq_iff_eq, hconstant _ hmessage, Option.some.injEq] at hvalue
    rw [beq_iff_eq, hconstant _ hmessage', Option.some.injEq, ← hvalue, utf8_inj] at hvalue'
    rw [List.inj_on_of_nodup_map htypes hmessage hmessage' hvalue'.symm]
  constructor
  · intro raw message hmessage
    rw [Dispatched.ofArm_eq_message, Dispatch.arm]
    cases raw.scope.get 35 with
    | none => simp
    | some value =>
      rw [Option.bind_some, find?_eq_some_iff_of_unique (hunique value),
        and_iff_right ((hmem _).mpr ⟨message, hmessage, rfl⟩), beq_iff_eq, hconstant _ hmessage]
      exact eq_comm
  · intro raw
    rw [Dispatched.ofArm_eq_unrecognized, Dispatch.arm]
    cases raw.scope.get 35 with
    | none => simp
    | some value =>
      rw [Option.bind_some, List.find?_eq_none]
      constructor
      · intro hnot message hmessage heq
        apply hnot message.name ((hmem _).mpr ⟨message, hmessage, rfl⟩)
        rw [beq_iff_eq, hconstant message hmessage, heq]
      · intro hnot name hname heq
        obtain ⟨message, hmessage, rfl⟩ := (hmem name).mp hname
        rw [beq_iff_eq, hconstant message hmessage] at heq
        exact hnot message hmessage heq.symm

theorem Rust.dispatches (h : Rust.emitDispatch dictionary = some dispatch)
    (hnames : (dictionary.spec.messages.map Message.name).Nodup)
    (htypes : (dictionary.spec.messages.map Message.msgType).Nodup) :
    Dispatches dictionary (Rust.fromRaw dispatch) :=
  dispatches_of_arms h (fun value => Rust.bytes_lawful.read_literal (utf8 value)) hnames htypes
    (List.Perm.refl _)

theorem Python.dispatches (h : Python.emitDispatch dictionary = some dispatch)
    (hnames : (dictionary.spec.messages.map Message.name).Nodup)
    (htypes : (dictionary.spec.messages.map Message.msgType).Nodup) :
    Dispatches dictionary (Python.fromRaw dispatch) :=
  dispatches_of_arms h (fun value => Python.bytes_lawful.read_literal (utf8 value)) hnames htypes
    (List.reverse_perm _)

end Arms

/-- **A raw message is read as the message its MsgType names**, by both languages: the one whose
type, as UTF-8 bytes, is the value of the first field 35, and as none of them where there is no
such field or no such type. -/
theorem dispatch_reads {spec : Spec} {dictionary : Dictionary}
    (hresolve : spec.resolve = .ok dictionary) :
    (∀ names warnings, Rust.Names.new dictionary [] = .ok (names, warnings) →
      ∀ dispatch, Rust.emitDispatch dictionary = some dispatch →
        Dispatches dictionary (Rust.fromRaw dispatch)) ∧
    ∀ names warnings, Python.Names.new dictionary [] = .ok (names, warnings) →
      ∀ dispatch, Python.emitDispatch dictionary = some dispatch →
        Dispatches dictionary (Python.fromRaw dispatch) := by
  obtain ⟨rfl, hd⟩ := resolved_of_resolve hresolve
  exact ⟨fun names warnings h dispatch hdispatch =>
      Rust.dispatches hdispatch (Rust.messages_nodup h) hd.consistent.msgTypes_unique,
    fun names warnings h dispatch hdispatch =>
      Python.dispatches hdispatch (Python.messages_nodup h) hd.consistent.msgTypes_unique⟩

theorem dispatch_reads_orders :
    (∃ dispatch, Rust.emitDispatch ordersDictionary = some dispatch ∧
      Dispatches ordersDictionary (Rust.fromRaw dispatch)) ∧
    ∃ dispatch, Python.emitDispatch ordersDictionary = some dispatch ∧
      Dispatches ordersDictionary (Python.fromRaw dispatch) := by
  have hresolve : ordersSpec.resolve = .ok ordersDictionary := rfl
  obtain ⟨_, _, hrust, _⟩ := exists_of_renamedBy
    (show renamedBy (Rust.Names.new ordersDictionary []) = some [some "Buy2"] by decide +kernel)
  obtain ⟨_, _, hpython, _⟩ := exists_of_renamedBy
    (show renamedBy (Python.Names.new ordersDictionary []) = some [some "BUY_2"] by decide +kernel)
  obtain ⟨hrustReads, hpythonReads⟩ := dispatch_reads hresolve
  exact ⟨⟨_, rfl, hrustReads _ _ hrust _ rfl⟩, ⟨_, rfl, hpythonReads _ _ hpython _ rfl⟩⟩

end Refix.Codegen
