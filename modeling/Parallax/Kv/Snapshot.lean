import Parallax.Kv.Machine

/-! Serialisation of the state machine: `Snapshot` and `Restore` of kv/kv.go. -/
namespace Parallax.Kv
open Std (ExtTreeMap)
open BigEndian Reader Decoder

def snapshotEncodingVersion : UInt8 := 1

namespace StateMachine

/-- One session: clientID, lastSeq and the recorded result. -/
def appendSession (buf : Bytes) (sess : UInt64 × Session) : Bytes :=
  let buf := appendUint64 buf sess.1
  let buf := appendUint64 buf sess.2.lastSeq
  let buf := buf ++ [sess.2.lastResult.status.toByte]
  let buf := appendOptBytes buf sess.2.lastResult.value
  appendUint64 buf sess.2.lastResult.version

def appendKey (buf : Bytes) (rec : Bytes × ValueRecord) : Bytes :=
  let buf := appendString buf rec.1
  let buf := appendOptBytes buf rec.2.value
  appendUint64 buf rec.2.version

/-- The lists of a tree map are in the order of its keys, so they are what the source sorts. -/
def snapshot (m : StateMachine) : Bytes :=
  let buf := [snapshotEncodingVersion]
  let sessions := m.sessions.toList
  let buf := appendUint64 buf (UInt64.ofNat sessions.length)
  let buf := sessions.foldl appendSession buf
  let keys := m.data.toList
  let buf := appendUint64 buf (UInt64.ofNat keys.length)
  keys.foldl appendKey buf

def decodeSession : Decoder (UInt64 × Session) := do
  let id ← uint64
  let lastSeq ← uint64
  let status ← byte
  let value ← optBytes
  let version ← uint64
  pure (id,{ lastSeq, lastResult := { status := .ofByte status, value, version } })

def decodeKey : Decoder (Bytes × ValueRecord) := do
  let key ← string
  let value ← optBytes
  let version ← uint64
  pure (key,{ value, version })

/-- A count that the input cannot hold is rejected; later entries for a key overwrite earlier ones. -/
def decodeKeys (sessions : ExtTreeMap UInt64 Session) : Decoder StateMachine := do
  let nKeys ← uint64
  guard (fun remaining => nKeys.toNat ≤ remaining / 13) (.keyCount nKeys)
  let keys ← times decodeKey nKeys.toNat
  pure { data := keys.foldl (fun data k => data.insert k.1 k.2) ∅, sessions }

def decodeSnapshot : Decoder StateMachine := do
  let version ← byte
  if version ≠ snapshotEncodingVersion then fail fun _ => .snapshotVersion version
  else
    let nSessions ← uint64
    guard (fun remaining => nSessions.toNat ≤ remaining / 26) (.sessionCount nSessions)
    let sessions ← times decodeSession nSessions.toNat
    decodeKeys (sessions.foldl (fun ss s => ss.insert s.1 s.2) ∅)

/-- The machine afterwards and the error, which leaves it unchanged. -/
def restore (m : StateMachine) (snapshot : Bytes) : StateMachine × Option DecodeErr :=
  match decodeSnapshot.run snapshot with
  | .ok m' => (m',none)
  | .error e => (m,some e)

private theorem appendSession_eq (buf : Bytes) (sess : UInt64 × Session) :
    appendSession buf sess = buf ++ appendSession [] sess := by
  simp only [appendSession,appendUint64]
  rw [appendOptBytes_eq,appendOptBytes_eq ([] ++ _ ++ _ ++ _)]
  simp

private theorem appendKey_eq (buf : Bytes) (rec : Bytes × ValueRecord) : appendKey buf rec = buf ++ appendKey [] rec := by
  simp only [appendKey,appendUint64,appendString,appendUint32]
  rw [appendOptBytes_eq,appendOptBytes_eq ([] ++ _ ++ _)]
  simp

private theorem foldl_append_eq {α : Type} (f : Bytes → α → Bytes) (hf : ∀ buf a, f buf a = buf ++ f [] a) (buf : Bytes)
    (as : List α) : as.foldl f buf = buf ++ as.flatMap (f []) := by
  induction as generalizing buf with
  | nil => simp
  | cons a as ih =>
    rw [List.foldl_cons,ih,hf,List.flatMap_cons,List.append_assoc]

theorem snapshot_eq (m : StateMachine) :
    m.snapshot = [snapshotEncodingVersion] ++ (put 8 (UInt64.ofNat m.sessions.toList.length).toNat ++
      (m.sessions.toList.flatMap (appendSession []) ++ (put 8 (UInt64.ofNat m.data.toList.length).toNat ++
        m.data.toList.flatMap (appendKey [])))) := by
  simp only [snapshot,appendUint64]
  rw [foldl_append_eq _ appendSession_eq,foldl_append_eq _ appendKey_eq]
  simp

/-- Everything the format can hold. The counts are those of a map in memory. -/
structure Fits (m : StateMachine) : Prop where
  keys : ∀ (k : Bytes) (rec : ValueRecord), m.data[k]? = some rec → k.length < 2 ^ 32 ∧ Short rec.value
  results : ∀ (id : UInt64) (sess : Session), m.sessions[id]? = some sess → Short sess.lastResult.value
  dataSize : m.data.size < 2 ^ 64
  sessionSize : m.sessions.size < 2 ^ 64

private theorem takes_session {sess : UInt64 × Session} (h : Short sess.2.lastResult.value) :
    Takes decodeSession (appendSession [] sess) sess := by
  obtain ⟨id,⟨lastSeq,⟨status,value,version⟩⟩⟩ := sess
  have heq : appendSession [] (id,⟨lastSeq,⟨status,value,version⟩⟩) = put 8 id.toNat ++ (put 8 lastSeq.toNat ++
      ([status.toByte] ++ (appendOptBytes [] value ++ put 8 version.toNat))) := by
    simp only [appendSession,appendUint64]
    rw [appendOptBytes_eq]
    simp
  have hread : Takes decodeSession _ (id,⟨lastSeq,⟨.ofByte status.toByte,value,version⟩⟩) :=
    (takes_uint64 id).andThen ((takes_uint64 lastSeq).andThen ((takes_byte status.toByte).andThen
      ((takes_optBytes h).andThen ((takes_uint64 version).map fun v =>
        (id,({ lastSeq, lastResult := ⟨.ofByte status.toByte,value,v⟩ } : Session))))))
  rwa [Status.ofByte_toByte,← heq] at hread

private theorem takes_key {rec : Bytes × ValueRecord} (hk : rec.1.length < 2 ^ 32) (hv : Short rec.2.value) :
    Takes decodeKey (appendKey [] rec) rec := by
  obtain ⟨key,⟨value,version⟩⟩ := rec
  have heq : appendKey [] (key,⟨value,version⟩) =
      appendString [] key ++ (appendOptBytes [] value ++ put 8 version.toNat) := by
    simp only [appendKey,appendUint64]
    rw [appendOptBytes_eq]
    simp
  rw [heq]
  exact (takes_string hk).andThen ((takes_optBytes hv).andThen ((takes_uint64 version).map fun v =>
    (key,({ value, version := v } : ValueRecord))))

theorem length_flatMap_ge {α : Type} {enc : α → Bytes} {k : Nat} (h : ∀ a, k ≤ (enc a).length) (as : List α) :
    k * as.length ≤ (as.flatMap enc).length := by
  induction as with
  | nil => simp
  | cons a as ih =>
    have := h a
    rw [List.flatMap_cons,List.length_append,List.length_cons,Nat.mul_succ]
    omega

private theorem length_optBytes_pos (b : Option Bytes) : 1 ≤ (appendOptBytes [] b).length := by
  cases b <;> simp [appendOptBytes,appendUint32]

private theorem length_appendSession (sess : UInt64 × Session) : 26 ≤ (appendSession [] sess).length := by
  have := length_optBytes_pos sess.2.lastResult.value
  simp only [appendSession,appendUint64]
  rw [appendOptBytes_eq]
  simp
  omega

private theorem length_appendKey (rec : Bytes × ValueRecord) : 13 ≤ (appendKey [] rec).length := by
  have := length_optBytes_pos rec.2.value
  simp only [appendKey,appendUint64]
  rw [appendOptBytes_eq]
  simp [appendString,appendUint32]
  omega

theorem foldl_insert_toList {α β : Type} [DecidableEq α] [Ord α] [Std.TransOrd α] [Std.LawfulEqOrd α] (t : ExtTreeMap α β) :
    t.toList.foldl (fun t' p => t'.insert p.1 p.2) (∅ : ExtTreeMap α β) = t := by
  rw [← ExtTreeMap.ofList_eq_foldl]
  refine ExtTreeMap.ext_getElem? fun k => ?_
  cases h : t[k]? with
  | some v =>
    exact ExtTreeMap.getElem?_ofList_of_mem Std.compare_self ExtTreeMap.distinct_keys_toList
      (ExtTreeMap.mem_toList_iff_getElem?_eq_some.mpr h)
  | none =>
    refine ExtTreeMap.getElem?_ofList_of_contains_eq_false ?_
    rw [Bool.eq_false_iff,ne_eq,List.contains_iff_mem]
    intro hk
    obtain ⟨p,hp,rfl⟩ := List.mem_map.mp hk
    rw [ExtTreeMap.mem_toList_iff_getElem?_eq_some.mp hp] at h
    cases h

theorem takes_counted {α β : Type} {p : Decoder α} {enc : α → Bytes} {as : List α} {k : Nat} {e : UInt64 → DecodeErr}
    {f : List α → Decoder β} {rest : Bytes} {b : β} (hlen : as.length < 2 ^ 64) (hp : ∀ a ∈ as, Takes p (enc a) a)
    (hk : ∀ a, k ≤ (enc a).length) (hk0 : 0 < k) (hf : Takes (f as) rest b) :
    Takes (do
      let n ← uint64
      guard (fun remaining => n.toNat ≤ remaining / k) (e n)
      let as ← times p n.toNat
      f as) (put 8 (UInt64.ofNat as.length).toNat ++ (as.flatMap enc ++ rest)) b := by
  have hn : (UInt64.ofNat as.length).toNat = as.length := by
    rw [UInt64.toNat_ofNat']
    exact Nat.mod_eq_of_lt hlen
  refine (takes_uint64 (UInt64.ofNat as.length)).andThen ?_
  rw [hn]
  refine ((takes_times hp).andThen hf).guarded fun n hle => ?_
  have := length_flatMap_ge hk as
  rw [List.length_append] at hle
  rw [decide_eq_true_eq,Nat.le_div_iff_mul_le hk0,Nat.mul_comm]
  omega

private theorem takes_keys {m : StateMachine} (h : m.Fits) : Takes (decodeKeys m.sessions)
    (put 8 (UInt64.ofNat m.data.toList.length).toNat ++ m.data.toList.flatMap (appendKey [])) m := by
  have hlen : m.data.toList.length < 2 ^ 64 := by
    rw [ExtTreeMap.length_toList]
    exact h.dataSize
  have hkeys : ∀ k ∈ m.data.toList, Takes decodeKey (appendKey [] k) k := fun k hk =>
    have := h.keys k.1 k.2 (ExtTreeMap.mem_toList_iff_getElem?_eq_some.mp hk)
    takes_key this.1 this.2
  have := takes_counted (e := .keyCount) (f := fun keys =>
    pure (StateMachine.mk (keys.foldl (fun data k => data.insert k.1 k.2) ∅) m.sessions))
    hlen hkeys length_appendKey (by decide) (takes_pure _)
  rwa [foldl_insert_toList,List.append_nil] at this

theorem takes_snapshot {m : StateMachine} (h : m.Fits) : Takes decodeSnapshot m.snapshot m := by
  have hlen : m.sessions.toList.length < 2 ^ 64 := by
    rw [ExtTreeMap.length_toList]
    exact h.sessionSize
  have hsess : ∀ s ∈ m.sessions.toList, Takes decodeSession (appendSession [] s) s := fun s hs =>
    takes_session (h.results s.1 s.2 (ExtTreeMap.mem_toList_iff_getElem?_eq_some.mp hs))
  have hbody := takes_counted (e := .sessionCount) (f := fun ss =>
    decodeKeys (ss.foldl (fun ss s => ss.insert s.1 s.2) ∅)) hlen hsess length_appendSession (by decide)
    (by rw [foldl_insert_toList]; exact takes_keys h)
  rw [snapshot_eq,decodeSnapshot]
  refine (takes_byte snapshotEncodingVersion).andThen ?_
  rw [if_neg (not_not.mpr rfl)]
  exact hbody

theorem restore_snapshot {m : StateMachine} (h : m.Fits) (other : StateMachine) :
    other.restore m.snapshot = (m,none) := by
  rw [restore,run_ok (takes_snapshot h)]

private theorem restore_error {m m' : StateMachine} {bs : Bytes} {e : DecodeErr} (h : m.restore bs = (m',some e)) :
    m' = m := by
  rw [restore] at h
  split at h <;> simp_all

/-- `Apply` in order; `none` once a command panics. -/
def applyAll (m : StateMachine) : List Command → Option (StateMachine × List Result)
  | [] => some (m,[])
  | cmd :: cmds => do
    let (res,m) ← m.apply cmd
    let (m,results) ← m.applyAll cmds
    pure (m,res :: results)

/-- Snapshots restore exactly, on any machine; they determine the state; nothing shorter or longer is accepted,
and an input that is not accepted changes nothing. -/
theorem snapshot_round_trip {m : StateMachine} (h : m.Fits) :
    (∀ other : StateMachine, other.restore m.snapshot = (m,none) ∧
      ∀ cmds, (other.restore m.snapshot).1.applyAll cmds = m.applyAll cmds) ∧
    (∀ m' : StateMachine, m'.Fits → (m.snapshot = m'.snapshot ↔ m = m')) ∧
    (∀ (other : StateMachine) (bs : Bytes), bs <+: m.snapshot ∨ m.snapshot <+: bs → bs ≠ m.snapshot →
      (other.restore bs).2 ≠ none) ∧
    ∀ (other : StateMachine) (bs : Bytes), (other.restore bs).2 ≠ none → (other.restore bs).1 = other := by
  refine ⟨fun other => ⟨restore_snapshot h other,fun cmds => by rw [restore_snapshot h]⟩,fun m' h' => ⟨fun heq => ?_,
    fun heq => by rw [heq]⟩,fun other bs hbs hne => ?_,fun other bs herr => ?_⟩
  · have := restore_snapshot h m
    rw [heq,restore_snapshot h'] at this
    exact (Prod.mk.inj this).1.symm
  · rcases hbs with hbs | ⟨extra,rfl⟩
    · have hk : bs.length < m.snapshot.length := Nat.lt_of_le_of_ne hbs.length_le fun hlen =>
        hne (hbs.eq_of_length hlen)
      obtain ⟨e,he⟩ := run_take (takes_snapshot h) hk
      rw [restore,List.prefix_iff_eq_take.mp hbs,he]
      simp
    have hx : extra ≠ [] := fun hx => hne (by rw [hx,List.append_nil])
    rw [restore,run_append (takes_snapshot h) hx]
    simp
  · obtain ⟨e,he⟩ := Option.ne_none_iff_exists'.mp herr
    exact restore_error (Prod.ext rfl he)

theorem snapshot_round_trip_small :
    let m : StateMachine :=
      { data := (∅ : ExtTreeMap Bytes ValueRecord).insert [107] { value := some [], version := 1 },
        sessions := (∅ : ExtTreeMap UInt64 Session).insert 7
          { lastSeq := 3, lastResult := { status := .ok, version := 1 } } }
    m.Fits ∧ (({} : StateMachine).restore m.snapshot) = (m,none) := by
  intro m
  have hm : m.Fits := by
    refine ⟨fun k rec hrec => ?_,fun id sess hsess => ?_,by decide +kernel,by decide +kernel⟩
    · rw [ExtTreeMap.getElem?_insert] at hrec
      split at hrec
      · rename_i hk
        rw [← Std.LawfulEqCmp.eq_of_compare hk,← Option.some.inj hrec]
        decide
      · simp at hrec
    rw [ExtTreeMap.getElem?_insert] at hsess
    split at hsess
    · rw [← Option.some.inj hsess]
      decide
    · simp at hsess
  exact ⟨hm,((snapshot_round_trip hm).1 {}).1⟩

end StateMachine
end Parallax.Kv
