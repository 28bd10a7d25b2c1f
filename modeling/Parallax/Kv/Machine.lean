import Std.Data.ExtTreeMap
import Parallax.Kv.Codec

/-! kv/kv.go: the replicated state machine with its session table. -/
namespace Parallax.Kv
open Std (ExtTreeMap)

structure ValueRecord where
  value : Option Bytes
  version : UInt64
  deriving DecidableEq, Repr

structure Session where
  lastSeq : UInt64
  lastResult : Result
  deriving DecidableEq, Repr

/-- `NewStateMachine` is `{}`. Go strings are compared byte by byte. -/
structure StateMachine where
  data : ExtTreeMap Bytes ValueRecord := ∅
  sessions : ExtTreeMap UInt64 Session := ∅
  deriving DecidableEq

namespace StateMachine

def get (m : StateMachine) (key : Bytes) : Result :=
  match m.data[key]? with
  | none => { status := .notFound }
  | some rec => { status := .ok, value := rec.value, version := rec.version }

/-- Stores a value under the next version. -/
def store (m : StateMachine) (key : Bytes) (value : Option Bytes) : Result × StateMachine :=
  -- A missing record is the zero value.
  let version := ((m.data[key]?).map ValueRecord.version).getD 0 + 1
  ({ status := .ok, version := version },{ m with data := m.data.insert key { value, version } })

def cas (m : StateMachine) (cmd : Command) : Result × StateMachine :=
  match cmd.expect, m.data[cmd.key]? with
  | none, some cur => ({ status := .casMismatch, value := cur.value, version := cur.version },m)
  | none, none => m.store cmd.key cmd.value
  | some _, none => ({ status := .casMismatch },m)
  | some expect, some cur =>
    -- bytes.Equal does not tell nil from empty.
    if cur.value.getD [] ≠ expect then
      ({ status := .casMismatch, value := cur.value, version := cur.version },m)
    else m.store cmd.key cmd.value

/-- `none` is the panic on an operation that no decoded command has. -/
def execute (m : StateMachine) (cmd : Command) : Option (Result × StateMachine) :=
  match cmd.op with
  | .get => some (m.get cmd.key,m)
  | .put => some (m.store cmd.key cmd.value)
  | .delete =>
    match m.data[cmd.key]? with
    | none => some ({ status := .notFound },m)
    | some _ => some ({ status := .ok },{ m with data := m.data.erase cmd.key })
  | .cas => some (m.cas cmd)
  | .invalid | .other _ => none

/-- Executes a command and records its result for the client. -/
def advance (m : StateMachine) (cmd : Command) : Option (Result × StateMachine) :=
  (m.execute cmd).map fun (res,m) =>
    (res,{ m with sessions := m.sessions.insert cmd.clientID { lastSeq := cmd.seq, lastResult := res } })

def apply (m : StateMachine) (cmd : Command) : Option (Result × StateMachine) :=
  match m.sessions[cmd.clientID]? with
  | some sess =>
    if cmd.seq = sess.lastSeq then some (sess.lastResult,m)
    else if cmd.seq < sess.lastSeq then some ({ status := .staleSeq },m)
    else m.advance cmd
  | none => m.advance cmd

def read (m : StateMachine) (key : Bytes) : Result := m.get key

theorem execute_cases {m m' : StateMachine} {cmd : Command} {res : Result} (h : m.execute cmd = some (res,m')) :
    (res.value = none ∨ ∃ rec, m.data[cmd.key]? = some rec ∧ res.value = rec.value) ∧
      (m'.data = m.data ∨ (∃ version, m'.data = m.data.insert cmd.key ⟨cmd.value,version⟩) ∨
        m'.data = m.data.erase cmd.key) ∧ m'.sessions = m.sessions := by
  unfold execute at h
  split at h
  · cases h
    unfold get
    cases hrec : m.data[cmd.key]? with
    | none => exact ⟨.inl rfl,.inl rfl,rfl⟩
    | some rec => exact ⟨.inr ⟨rec,rfl,rfl⟩,.inl rfl,rfl⟩
  · cases h
    exact ⟨.inl rfl,.inr (.inl ⟨_,rfl⟩),rfl⟩
  · split at h <;> cases h
    · exact ⟨.inl rfl,.inl rfl,rfl⟩
    · exact ⟨.inl rfl,.inr (.inr rfl),rfl⟩
  · have hcas := Option.some.inj h
    unfold cas at hcas
    split at hcas
    · rename_i cur _ hcur
      cases hcas
      exact ⟨.inr ⟨cur,hcur,rfl⟩,.inl rfl,rfl⟩
    · cases hcas
      exact ⟨.inl rfl,.inr (.inl ⟨_,rfl⟩),rfl⟩
    · cases hcas
      exact ⟨.inl rfl,.inl rfl,rfl⟩
    rename_i cur _ hcur
    split at hcas <;> cases hcas
    · exact ⟨.inr ⟨cur,hcur,rfl⟩,.inl rfl,rfl⟩
    · exact ⟨.inl rfl,.inr (.inl ⟨_,rfl⟩),rfl⟩
  · cases h
  · cases h

theorem execute_sessions {m m' : StateMachine} {cmd : Command} {res : Result} (h : m.execute cmd = some (res,m')) :
    m'.sessions = m.sessions := (execute_cases h).2.2

/-- The result and the new data depend on the data only. -/
theorem execute_data {m₁ m₂ : StateMachine} (h : m₁.data = m₂.data) (cmd : Command) :
    (m₁.execute cmd).map (fun r => (r.1,r.2.data)) = (m₂.execute cmd).map (fun r => (r.1,r.2.data)) := by
  cases m₁ with
  | mk data s₁ =>
    cases m₂ with
    | mk data' s₂ =>
      obtain rfl : data = data' := h
      unfold execute
      split
      · rfl
      · rfl
      · dsimp only
        cases data[cmd.key]? <;> rfl
      · dsimp only [cas,store]
        cases cmd.expect with
        | none => cases data[cmd.key]? <;> rfl
        | some expect =>
          cases data[cmd.key]? with
          | none => rfl
          | some cur =>
            dsimp only
            split <;> rfl
      · rfl
      · rfl

end StateMachine
end Parallax.Kv
