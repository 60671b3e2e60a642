import StackLang.Session

/-!
# Sessions that share a registry

A host holds several sessions. Those that share its registry find the names that any of them has
interned; every other session has a registry of its own.
-/

namespace StackLang

structure Member where
  session : Session
  shares : Bool

structure Host where
  symbols : Registry := {}
  members : Array Member := #[]

namespace Host

/-- Add a session. -/
def add (h : Host) (shares : Bool) (settings : List Session.Setting) : Host :=
  let session := Session.new (if shares then h.symbols else {}) settings
  { symbols := if shares then session.machine.symbols else h.symbols
    members := h.members.push ⟨session, shares⟩ }

/-- Let one session do something. -/
def on {α : Type} (h : Host) (i : Nat) (f : Session → Session × α) : Host × Option α :=
  match h.members[i]? with
  | none => (h, none)
  | some member =>
    let session := if member.shares then member.session.setSymbols h.symbols else member.session
    let (session, a) := f session
    ({ symbols := if member.shares then session.machine.symbols else h.symbols
       members := h.members.setIfInBounds i { member with session } }, some a)

end Host

end StackLang
