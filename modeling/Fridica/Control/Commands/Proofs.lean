import Fridica.Control.Commands.Spec
import Fridica.Control.Server.Proofs
import Fridica.Control.Target.Proofs
import Fridica.Lib.Checked

/-!
# A command changes what it names
-/

open Fridica.Ask
open Fridica.Json (Value)
open Fridica.Threads.Controls (Authority Control)

namespace Fridica.Control.Commands

open Fridica.Control.Api

/-! ## What a path names -/

section Names

attribute [local simp] Names

variable {o : Outside} {l : Trace} {request : Request} {op : Operation}

end Names

/-! ## What a path says -/

/-- A part that is read as itself. -/
def Plain (p : Target.Text) : Prop := Target.IsPart p ∧ Target.byte '%' ∉ p

theorem plain_of_segment {value id : Target.Text} (h : Target.segment value = some id) :
    Plain id := by
  obtain ⟨-, -, -, hall⟩ := Target.segment_ok h
  have hno {d : UInt8} (hd : Target.admitted d = false) : d ∉ id :=
    Target.not_mem_of_admitted hall hd
  exact ⟨⟨hno (by decide), hno (by decide), hno (by decide)⟩, hno (by decide)⟩

theorem segment_eq {value id : Target.Text} (h : Target.segment value = some id) : id = value := by
  unfold Target.segment at h
  split at h
  · cases h
  · exact (Option.some.inj h).symm

section Paths

variable {o : Outside} {l : Trace} {call : Int} {method : String} {body : Value}
  {parts : List String}

end Paths

/-! ## What a command changes -/

section Changes

variable {o : Outside} {l : Trace} {call : Int} {parts : List String} {op : Operation}

theorem of_checked {id : Option Target.Text} {id' : Target.Text} (h : checked id = .ok id') :
    id = some id' := by
  cases id with
  | none => cases h
  | some id => exact congrArg some (Except.ok.inj h)

theorem segment_ok {id id' : Target.Text} (h : segment id = .ok id') : id' = id ∧ Plain id' :=
  ⟨segment_eq (of_checked h), plain_of_segment (of_checked h)⟩

end Changes

/-! ## Over the socket -/

/-- The body arrives as it was sent. -/
def Reads (f : Server.Formats) (body : Value) : Prop :=
  f.encode body ≠ [] ∧ f.parse (f.encode body) = some body

section Socket

variable {f : Server.Formats} {o : Outside} {access : Server.Access} {token : Option String}
  {busy : Bool} {c : Command} {sent : Sent} {r : Server.HttpRequest} {l : Trace}
  {answer : Except Response Response}

end Socket

/-! ## A post retried -/

/-- The format of a request without fields. -/
def formats : Server.Formats :=
  ⟨fun bytes => if bytes = [123, 125] then some (.object []) else none, fun _ => [123, 125], id⟩

def retry : Server.HttpRequest :=
  { Server.retry with body := .complete [123, 125] }

def sent : Sent := post [bytes "outbox", bytes "7", bytes "retry"] []

def retried : Trace × Except Response Response :=
  play Server.replies [] (Server.serve formats Server.outside .owner_peer retry).run

end Fridica.Control.Commands
