import Parallax.Kv.Machine
import Parallax.Linear.Locality
import Mathlib.Tactic.SplitIfs

/-! sim/lin/lin.go: histories of client operations and the model of one key that they are checked against. The search
for an order is Porcupine's. -/
namespace Parallax.Lin
open Std (ExtTreeMap)
open Kv Linear

structure Operation where
  clientID : UInt64
  input : Command
  output : Result := { status := .ok }
  call : Int64
  ret : Int64
  deriving DecidableEq, Repr

/-- `NewHistory` is `{}`. -/
structure History where
  ops : List Operation := []
  pending : ExtTreeMap Nat Operation := ∅
  nextID : Nat := 0

namespace History

def invoke (h : History) (clientID : UInt64) (cmd : Command) (at_ : Int64) : Nat × History :=
  let op : Operation := { clientID, input := cmd, call := at_, ret := -1 }
  (h.nextID,{ h with pending := h.pending.insert h.nextID op, nextID := h.nextID + 1 })

def complete (h : History) (id : Nat) (res : Result) (at_ : Int64) : History :=
  match h.pending[id]? with
  | none => h
  | some op => { h with
      pending := h.pending.erase id
      ops := h.ops ++ [{ op with output := res, ret := at_ }] }

def operations (h : History) : List Operation := h.ops

/-- In the order of their ids. -/
def pendingOps (h : History) : List Operation := h.pending.toList.map (·.2)

end History

structure KeyState where
  present : Bool := false
  value : Bytes := []
  version : UInt64 := 0
  deriving DecidableEq, Repr

structure Outcome where
  known : Bool := false
  res : Result := { status := .ok }
  deriving DecidableEq, Repr

def casMatches (st : KeyState) (cmd : Command) : Bool :=
  match cmd.expect with
  | none => !st.present
  | some expect => st.present && st.value == expect

def applyOp (st : KeyState) (cmd : Command) : KeyState :=
  match cmd.op with
  | .put => { present := true, value := cmd.value.getD [], version := st.version + 1 }
  | .delete => {}
  | .cas =>
    if casMatches st cmd then { present := true, value := cmd.value.getD [], version := st.version + 1 } else st
  | .get | .invalid | .other _ => st

/-- The states that may follow; none if the answer is not one that the command can have in this state. -/
def stepKV (st : KeyState) (cmd : Command) (out : Outcome) : List KeyState :=
  if !out.known then
    let after := applyOp st cmd
    if after = st then [st] else [after,st]
  else
    let res := out.res
    match cmd.op with
    | .get =>
      if st.present then
        if res.status = .ok ∧ res.value.getD [] = st.value ∧ res.version = st.version then [st] else []
      else if res.status = .notFound then [st] else []
    | .put =>
      let next : KeyState := { present := true, value := cmd.value.getD [], version := st.version + 1 }
      if res.status = .ok ∧ res.version = next.version then [next] else []
    | .delete =>
      if st.present then
        if res.status = .ok then [{}] else []
      else if res.status = .notFound then [st] else []
    | .cas =>
      if casMatches st cmd then
        let next : KeyState := { present := true, value := cmd.value.getD [], version := st.version + 1 }
        if res.status = .ok ∧ res.version = next.version then [next] else []
      else if st.present then
        if res.status = .casMismatch ∧ res.value.getD [] = st.value ∧ res.version = st.version then [st] else []
      else if res.status = .casMismatch then [st] else []
    | .invalid | .other _ => []

/-- The operation type of the Porcupine library. -/
structure PorcupineOperation where
  clientId : Int64
  input : Command
  output : Outcome
  call : Int64
  ret : Int64
  deriving DecidableEq, Repr

/-- What `Check` hands to Porcupine. -/
def History.checked (h : History) : List PorcupineOperation :=
  h.operations.map (fun o =>
    { clientId := o.clientID.toInt64, input := o.input, output := { known := true, res := o.output },
      call := o.call, ret := o.ret }) ++
  h.pendingOps.map (fun o =>
    { clientId := o.clientID.toInt64, input := o.input, output := {}, call := o.call, ret := Int64.maxValue })

def byKey (history : List PorcupineOperation) : ExtTreeMap Bytes (List PorcupineOperation) :=
  history.foldl (fun m op => m.insert op.input.key (m.getD op.input.key [] ++ [op])) ∅

/-- The model's Partition. The keys come sorted. -/
def partition (history : List PorcupineOperation) : List (List PorcupineOperation) :=
  (byKey history).keys.map fun k => (byKey history).getD k []

/-- The model's Init. -/
def init : List KeyState := [{}]

/-- What the store holds under a key, as the model has it. -/
def keyState (m : StateMachine) (key : Bytes) : KeyState :=
  match m.data[key]? with
  | none => {}
  | some rec => { present := true, value := rec.value.getD [], version := rec.version }

/-- Results that show the value of the key. -/
def ShowsValue (st : KeyState) (cmd : Command) (res : Result) : Prop :=
  (cmd.op = .get ∧ res.status = .ok) ∨ (cmd.op = .cas ∧ res.status = .casMismatch ∧ st.present = true)

/-- Results that show its version. -/
def ShowsVersion (st : KeyState) (cmd : Command) (res : Result) : Prop :=
  cmd.op = .put ∨ (cmd.op = .cas ∧ res.status = .ok) ∨ ShowsValue st cmd res

/-- The answer has the right status, and the version and the value bytes where they are shown. -/
def Agrees (st : KeyState) (cmd : Command) (res answer : Result) : Prop :=
  answer.status = res.status ∧ (ShowsVersion st cmd res → answer.version = res.version) ∧
    (ShowsValue st cmd res → answer.value.getD [] = res.value.getD [])

instance (st : KeyState) (cmd : Command) (res : Result) : Decidable (ShowsValue st cmd res) :=
  inferInstanceAs (Decidable (_ ∨ _))

instance (st : KeyState) (cmd : Command) (res : Result) : Decidable (ShowsVersion st cmd res) :=
  inferInstanceAs (Decidable (_ ∨ _))

instance (st : KeyState) (cmd : Command) (res answer : Result) : Decidable (Agrees st cmd res answer) :=
  inferInstanceAs (Decidable (_ ∧ _))

section Execute
variable {m m' : StateMachine} {cmd : Command} {res : Result}

private theorem keyState_insert (m : StateMachine) (key k : Bytes) (rec : ValueRecord) :
    keyState { m with data := m.data.insert key rec } k =
      if k = key then { present := true, value := rec.value.getD [], version := rec.version } else keyState m k := by
  simp only [keyState,ExtTreeMap.getElem?_insert,Std.compare_eq_iff_eq,eq_comm (a := key)]
  split_ifs <;> rfl

private theorem keyState_erase (m : StateMachine) (key k : Bytes) :
    keyState { m with data := m.data.erase key } k = if k = key then {} else keyState m k := by
  simp only [keyState,ExtTreeMap.getElem?_erase,Std.compare_eq_iff_eq,eq_comm (a := key)]
  split_ifs <;> rfl

theorem keyState_none {key : Bytes} (h : m.data[key]? = none) : keyState m key = {} := by
  rw [keyState,h]

private theorem keyState_some {key : Bytes} {rec : ValueRecord} (h : m.data[key]? = some rec) :
    keyState m key = { present := true, value := rec.value.getD [], version := rec.version } := by
  rw [keyState,h]

private theorem version_keyState (m : StateMachine) (key : Bytes) :
    (keyState m key).version = ((m.data[key]?).map ValueRecord.version).getD 0 := by
  unfold keyState
  cases m.data[key]? <;> rfl

private theorem keyState_store (m : StateMachine) (key k : Bytes) (value : Option Bytes) :
    keyState (m.store key value).2 k = if k = key then
      { present := true, value := value.getD [], version := (keyState m key).version + 1 } else keyState m k := by
  rw [StateMachine.store,keyState_insert,version_keyState]

theorem cas_eq (m : StateMachine) (cmd : Command) : m.cas cmd =
    if casMatches (keyState m cmd.key) cmd then m.store cmd.key cmd.value
    else (match m.data[cmd.key]? with
      | none => { status := .casMismatch }
      | some cur => { status := .casMismatch, value := cur.value, version := cur.version },m) := by
  unfold StateMachine.cas casMatches
  cases hexp : cmd.expect with
  | none =>
    cases hrec : m.data[cmd.key]? with
    | none => rw [keyState_none hrec]; rfl
    | some cur => rw [keyState_some hrec]; rfl
  | some expect =>
    cases hrec : m.data[cmd.key]? with
    | none => rw [keyState_none hrec]; rfl
    | some cur =>
      rw [keyState_some hrec]
      by_cases heq : cur.value.getD [] = expect <;> simp [heq]

theorem keyState_execute (h : m.execute cmd = some (res,m')) (k : Bytes) :
    keyState m' k = if k = cmd.key then applyOp (keyState m cmd.key) cmd else keyState m k := by
  cases hop : cmd.op with
  | get =>
    simp only [StateMachine.execute,hop] at h
    cases h
    simp only [applyOp,hop]
    split_ifs with hk
    · rw [hk]
    · rfl
  | put =>
    simp only [StateMachine.execute,hop] at h
    cases h
    simp only [applyOp,hop]
    exact keyState_store ..
  | delete =>
    simp only [StateMachine.execute,hop] at h
    simp only [applyOp,hop]
    split at h <;> cases h
    · rename_i hrec
      split_ifs with hk
      · rw [hk,keyState_none hrec]
      · rfl
    · exact keyState_erase ..
  | cas =>
    simp only [StateMachine.execute,hop,cas_eq] at h
    simp only [applyOp,hop]
    by_cases hc : casMatches (keyState m cmd.key) cmd
    · rw [if_pos hc] at h ⊢
      cases h
      exact keyState_store ..
    rw [if_neg hc] at h ⊢
    cases h
    split_ifs with hk
    · rw [hk]
    · rfl
  | invalid =>
    simp only [StateMachine.execute,hop] at h
    cases h
  | other b =>
    simp only [StateMachine.execute,hop] at h
    cases h

theorem stepKV_known (h : m.execute cmd = some (res,m')) (answer : Result) :
    stepKV (keyState m cmd.key) cmd { known := true, res := answer } =
      if Agrees (keyState m cmd.key) cmd res answer then [keyState m' cmd.key] else [] := by
  have hnext := keyState_execute h cmd.key
  rw [if_pos rfl] at hnext
  rw [hnext]
  cases hop : cmd.op with
  | get =>
    simp only [StateMachine.execute,hop,StateMachine.get] at h
    cases hrec : m.data[cmd.key]? with
    | none =>
      rw [hrec] at h
      cases h
      simp [stepKV,applyOp,hop,keyState_none hrec,Agrees,ShowsVersion,ShowsValue]
    | some rec =>
      rw [hrec] at h
      cases h
      simp [stepKV,applyOp,hop,keyState_some hrec,Agrees,ShowsVersion,ShowsValue,and_comm]
  | put =>
    simp only [StateMachine.execute,hop] at h
    cases h
    simp [stepKV,applyOp,hop,version_keyState,Agrees,ShowsVersion,ShowsValue]
  | delete =>
    simp only [StateMachine.execute,hop] at h
    split at h <;> cases h
    · rename_i hrec
      simp [stepKV,applyOp,hop,keyState_none hrec,Agrees,ShowsVersion,ShowsValue]
    · rename_i hrec
      simp [stepKV,applyOp,hop,keyState_some hrec,Agrees,ShowsVersion,ShowsValue]
  | cas =>
    simp only [StateMachine.execute,hop,cas_eq] at h
    by_cases hc : casMatches (keyState m cmd.key) cmd
    · rw [if_pos hc] at h
      cases h
      simp [stepKV,applyOp,hop,hc,version_keyState,Agrees,ShowsVersion,ShowsValue]
    rw [if_neg hc] at h
    cases hrec : m.data[cmd.key]? with
    | none =>
      rw [hrec] at h
      cases h
      rw [keyState_none hrec] at hc ⊢
      simp [stepKV,applyOp,hop,hc,Agrees,ShowsVersion,ShowsValue]
    | some rec =>
      rw [hrec] at h
      cases h
      rw [keyState_some hrec] at hc ⊢
      simp [stepKV,applyOp,hop,hc,Agrees,ShowsVersion,ShowsValue,and_comm]
  | invalid =>
    simp only [StateMachine.execute,hop] at h
    cases h
  | other b =>
    simp only [StateMachine.execute,hop] at h
    cases h

theorem mem_stepKV_unknown {st st' : KeyState} (answer : Result) :
    st' ∈ stepKV st cmd { known := false, res := answer } ↔ st' = st ∨ st' = applyOp st cmd := by
  simp only [stepKV,Bool.not_false,if_true]
  split_ifs with h
  · simp [h]
  · simp [or_comm]

end Execute

/-- One command after the other, with their results. -/
def executeAll (m : StateMachine) : List Command → Option (List Result × StateMachine)
  | [] => some ([],m)
  | cmd :: cmds => do
    let (res,m) ← m.execute cmd
    let (results,m) ← executeAll m cmds
    pure (res :: results,m)

/-- The model of a key along the commands for it, as long as each leaves exactly one state. -/
def follow (key : Bytes) (st : KeyState) : List (Command × Result) → Option KeyState
  | [] => some st
  | (cmd,res) :: rest =>
    if cmd.key = key then
      match stepKV st cmd { known := true, res } with
      | [st] => follow key st rest
      | _ => none
    else follow key st rest

private theorem follow_executeAll {key : Bytes} {cmds : List Command} {m m' : StateMachine} {results : List Result}
    (h : executeAll m cmds = some (results,m')) :
    follow key (keyState m key) (cmds.zip results) = some (keyState m' key) := by
  induction cmds generalizing m results with
  | nil =>
    cases h
    rfl
  | cons cmd cmds ih =>
    obtain ⟨⟨res,m₁⟩,hcmd,h⟩ := Option.bind_eq_some_iff.mp h
    obtain ⟨⟨results',m₂⟩,hrest,h⟩ := Option.bind_eq_some_iff.mp h
    cases h
    rw [List.zip_cons_cons,follow]
    have hnext := keyState_execute hcmd key
    by_cases hk : cmd.key = key
    · obtain rfl := hk
      have hself : Agrees (keyState m cmd.key) cmd res res := ⟨rfl,fun _ => rfl,fun _ => rfl⟩
      rw [if_pos rfl,stepKV_known hcmd,if_pos hself]
      exact ih hrest
    rw [if_neg (Ne.symm hk)] at hnext
    rw [if_neg hk,← hnext]
    exact ih hrest

/-- Along every run of the state machine the model of a key accepts the results and follows the store. In each state
it accepts of the answers to a command those that agree with its result, and without an answer leaves the states before
and after. -/
theorem stepKV_refines_execute {cmds : List Command} {results : List Result} {m : StateMachine}
    (h : executeAll {} cmds = some (results,m)) (key : Bytes) :
    follow key {} (cmds.zip results) = some (keyState m key) ∧
      ∀ (cmd : Command) (res : Result) (m' : StateMachine), cmd.key = key → m.execute cmd = some (res,m') →
        (∀ answer, stepKV (keyState m key) cmd { known := true, res := answer } =
          if Agrees (keyState m key) cmd res answer then [keyState m' key] else []) ∧
        ∀ answer st, st ∈ stepKV (keyState m key) cmd { known := false, res := answer } ↔
          st = keyState m key ∨ st = keyState m' key := by
  refine ⟨?_,?_⟩
  · have hempty : keyState {} key = {} := keyState_none (ExtTreeMap.getElem?_empty ..)
    rw [← hempty]
    exact follow_executeAll h
  rintro cmd res m' rfl hcmd
  refine ⟨stepKV_known hcmd,fun answer st => ?_⟩
  rw [mem_stepKV_unknown,keyState_execute hcmd,if_pos rfl]

/-- A key written, deleted and created again; a CAS against what it holds. -/
def recreated : List Command :=
  [{ op := .put, key := [7], value := some [1] },{ op := .delete, key := [7] },
    { op := .cas, key := [7], value := some [2] },{ op := .cas, key := [7], value := some [3], expect := some [] }]

theorem stepKV_refines_recreated :
    follow [7] {} (recreated.zip [{ status := .ok, version := 1 },{ status := .ok },{ status := .ok, version := 1 },
      { status := .casMismatch, value := some [2], version := 1 }]) =
        some { present := true, value := [2], version := 1 } := by
  have hrun : (executeAll {} recreated).map (·.1) = some [{ status := .ok, version := 1 },{ status := .ok },
      { status := .ok, version := 1 },{ status := .casMismatch, value := some [2], version := 1 }] := by decide +kernel
  have hkey : (executeAll {} recreated).map (fun r => keyState r.2 [7]) =
      some { present := true, value := [2], version := 1 } := by decide +kernel
  obtain ⟨⟨results,m⟩,h,hres⟩ := Option.map_eq_some_iff.mp hrun
  obtain rfl := hres
  rw [h] at hkey
  rw [(stepKV_refines_execute h [7]).1]
  exact hkey

section Partition
variable {xs : List PorcupineOperation}

private theorem getD_byKey (k : Bytes) : (byKey xs).getD k [] = xs.filter (·.input.key = k) := by
  suffices h : ∀ m : ExtTreeMap Bytes (List PorcupineOperation),
      (xs.foldl (fun m op => m.insert op.input.key (m.getD op.input.key [] ++ [op])) m).getD k [] =
        m.getD k [] ++ xs.filter (·.input.key = k) by
    simpa [byKey,ExtTreeMap.getD_empty] using h ∅
  induction xs with
  | nil => simp
  | cons op xs ih =>
    intro m
    rw [List.foldl_cons,ih,ExtTreeMap.getD_insert]
    by_cases hk : op.input.key = k
    · obtain rfl := hk
      simp
    · rw [if_neg (by simpa using hk),List.filter_cons_of_neg (by simpa using hk)]

private theorem mem_byKey (k : Bytes) : k ∈ byKey xs ↔ ∃ op ∈ xs, op.input.key = k := by
  suffices h : ∀ m : ExtTreeMap Bytes (List PorcupineOperation),
      k ∈ xs.foldl (fun m op => m.insert op.input.key (m.getD op.input.key [] ++ [op])) m ↔
        k ∈ m ∨ ∃ op ∈ xs, op.input.key = k by
    simpa [byKey] using h ∅
  induction xs with
  | nil => simp
  | cons op xs ih =>
    intro m
    rw [List.foldl_cons,ih,ExtTreeMap.mem_insert,Std.compare_eq_iff_eq]
    simp only [List.mem_cons,exists_eq_or_imp]
    tauto

/-- One group for each key, with all its operations. -/
theorem partition_eq : partition xs = (byKey xs).keys.map fun k => xs.filter (·.input.key = k) := by
  simp only [partition,getD_byKey]

private theorem flatten_partition : (partition xs).flatten.Perm xs := by
  rw [partition_eq,← List.flatMap_def]
  refine flatMap_filter_perm ExtTreeMap.nodup_keys fun op hop => ?_
  exact ExtTreeMap.mem_keys.mpr ((mem_byKey _).mpr ⟨op,hop,rfl⟩)

end Partition

/-- The model's Step. -/
def KeyStep (st : KeyState) (op : PorcupineOperation) (st' : KeyState) : Prop := st' ∈ stepKV st op.input op.output

/-- The store with all its keys. An answered operation is executed and the answer agrees with its result; another may
be executed or not. -/
def StoreStep (m : StateMachine) (op : PorcupineOperation) (m' : StateMachine) : Prop :=
  if op.output.known then
    ∃ res, m.execute op.input = some (res,m') ∧ Agrees (keyState m op.input.key) op.input res op.output.res
  else m' = m ∨ ∃ res, m.execute op.input = some (res,m')

/-- An order of the operations in which none stands before one that had returned when it was called. -/
def Orders (ops l : List PorcupineOperation) : Prop := l.Perm ops ∧ Respects (·.call.toInt) (·.ret.toInt) l

theorem execute_none {m : StateMachine} {cmd : Command} (h : m.execute cmd = none) (st : KeyState) :
    applyOp st cmd = st ∧ ∀ answer, stepKV st cmd { known := true, res := answer } = [] := by
  unfold StateMachine.execute at h
  split at h
  · cases h
  · cases h
  · split at h <;> cases h
  · cases h
  · rename_i hop
    simp [applyOp,stepKV,hop]
  · rename_i hop
    simp [applyOp,stepKV,hop]

theorem StoreStep.pointwise {m m' : StateMachine} {op : PorcupineOperation} (h : StoreStep m op m') :
    Pointwise (·.input.key) KeyStep (keyState m) op (keyState m') := by
  obtain ⟨clientId,cmd,⟨known,answer⟩,call,ret⟩ := op
  have hframe : ∀ {res}, m.execute cmd = some (res,m') → ∀ k, k ≠ cmd.key → keyState m' k = keyState m k := by
    intro res hres k hk
    rw [keyState_execute hres,if_neg hk]
  cases known with
  | true =>
    obtain ⟨res,hres,hagrees⟩ := h
    refine ⟨?_,hframe hres⟩
    simp only [KeyStep]
    rw [stepKV_known hres,if_pos hagrees]
    exact List.mem_singleton.mpr rfl
  | false =>
    rcases h with rfl | ⟨res,hres⟩
    · exact ⟨(mem_stepKV_unknown answer).mpr (.inl rfl),fun k _ => rfl⟩
    · refine ⟨(mem_stepKV_unknown answer).mpr (.inr ?_),hframe hres⟩
      rw [keyState_execute hres,if_pos rfl]

theorem StoreStep.of_pointwise {m : StateMachine} {op : PorcupineOperation} {f : Bytes → KeyState}
    (h : Pointwise (·.input.key) KeyStep (keyState m) op f) : ∃ m', StoreStep m op m' ∧ keyState m' = f := by
  obtain ⟨clientId,cmd,⟨known,answer⟩,call,ret⟩ := op
  obtain ⟨hstep,hframe⟩ := h
  -- A store that has the right state under the key of the command has all of them.
  have hall : ∀ {m' : StateMachine} {res : Result}, m.execute cmd = some (res,m') → f cmd.key = keyState m' cmd.key →
      keyState m' = f := by
    intro m' res hres hkey
    funext k
    by_cases hk : k = cmd.key
    · rw [hk,hkey]
    · rw [keyState_execute hres,if_neg hk,hframe k hk]
  have hsame : f cmd.key = keyState m cmd.key → keyState m = f := by
    intro hkey
    funext k
    by_cases hk : k = cmd.key
    · rw [hk,hkey]
    · rw [hframe k hk]
  cases hexec : m.execute cmd with
  | none =>
    obtain ⟨hid,hreject⟩ := execute_none hexec (keyState m cmd.key)
    cases known with
    | true =>
      simp only [KeyStep] at hstep
      rw [hreject] at hstep
      cases hstep
    | false =>
      have hkey := (mem_stepKV_unknown answer).mp hstep
      rw [hid,or_self] at hkey
      exact ⟨m,.inl rfl,hsame hkey⟩
  | some r =>
    obtain ⟨res,m'⟩ := r
    cases known with
    | true =>
      simp only [KeyStep] at hstep
      rw [stepKV_known hexec] at hstep
      split at hstep
      · rename_i hagrees
        exact ⟨m',⟨res,hexec,hagrees⟩,hall hexec (List.mem_singleton.mp hstep)⟩
      · cases hstep
    | false =>
      rcases (mem_stepKV_unknown answer).mp hstep with hkey | hkey
      · exact ⟨m,.inl rfl,hsame hkey⟩
      · refine ⟨m',.inr ⟨res,hexec⟩,hall hexec ?_⟩
        rw [hkey,keyState_execute hexec,if_pos rfl]

theorem History.checked_proper {h : History} (hproper : ∀ op ∈ h.operations, op.call ≤ op.ret) :
    ∀ op ∈ h.checked, op.call.toInt ≤ op.ret.toInt := by
  intro op hop
  rcases List.mem_append.mp hop with hop | hop
  · obtain ⟨o,ho,rfl⟩ := List.mem_map.mp hop
    exact Int64.le_iff_toInt_le.mp (hproper o ho)
  · obtain ⟨o,_,rfl⟩ := List.mem_map.mp hop
    exact Int64.toInt_le _

/-- The whole history has an order that the store explains if and only if the operations of each key have one that the
model of the key explains; the groups that are checked are the operations of the keys, each in one group. -/
theorem check_by_key (h : History) (hproper : ∀ op ∈ h.operations, op.call ≤ op.ret) :
    ((∃ l, Orders h.checked l ∧ ∃ m, Steps StoreStep {} l m) ↔
      ∀ group ∈ partition h.checked, ∃ l, Orders group l ∧ ∃ st₀ ∈ init, ∃ st, Steps KeyStep st₀ l st) ∧
    (partition h.checked).flatten.Perm h.checked ∧
    ∃ keys : List Bytes, keys.Nodup ∧
      partition h.checked = keys.map fun k => h.checked.filter (·.input.key = k) := by
  refine ⟨?_,flatten_partition,_,ExtTreeMap.nodup_keys,partition_eq⟩
  have hempty : keyState {} = fun _ => {} := funext fun k => keyState_none (ExtTreeMap.getElem?_empty ..)
  have hsteps : ∀ l, (∃ m, Steps StoreStep {} l m) ↔
      ∃ f, Steps (Pointwise (·.input.key) KeyStep) (fun _ => {}) l f := by
    intro l
    rw [← hempty]
    exact steps_view keyState (fun _ _ _ => StoreStep.pointwise) (fun _ _ _ => StoreStep.of_pointwise) _
  have hlocal := exists_order_iff (·.input.key) KeyStep (fun _ => {}) (History.checked_proper hproper)
  simp only [Orders,hsteps,and_assoc,hlocal,init,List.mem_singleton,exists_eq_left,partition_eq,List.mem_map]
  constructor
  · rintro hkeys _ ⟨k,_,rfl⟩
    exact hkeys k
  intro hgroups k
  by_cases hk : k ∈ (byKey h.checked).keys
  · exact hgroups _ ⟨k,hk,rfl⟩
  -- A key without operations.
  have hnil : h.checked.filter (·.input.key = k) = [] := by
    refine List.filter_eq_nil_iff.mpr fun op hop hop' => hk ?_
    exact ExtTreeMap.mem_keys.mpr ((mem_byKey k).mpr ⟨op,hop,of_decide_eq_true hop'⟩)
  rw [hnil]
  exact ⟨[],.refl _,.nil,_,rfl⟩

/-- A write and a read of one key in overlapping time, a read of another that misses a write without an answer. -/
def overlapping : History :=
  let h : History := {}
  let (put,h) := h.invoke 1 { op := .put, key := [7], value := some [1] } 1
  let (get,h) := h.invoke 2 { op := .get, key := [7] } 2
  let h := h.complete get { status := .ok, value := some [1], version := 1 } 3
  let (_,h) := h.invoke 3 { op := .put, key := [8], value := some [2] } 4
  let h := h.complete put { status := .ok, version := 1 } 5
  let (get,h) := h.invoke 1 { op := .get, key := [8] } 6
  h.complete get { status := .notFound } 7

theorem check_by_key_overlapping : ∃ l, Orders overlapping.checked l ∧ ∃ m, Steps StoreStep {} l m := by
  have hproper : ∀ op ∈ overlapping.operations, op.call ≤ op.ret := by decide +kernel
  refine (check_by_key overlapping hproper).1.mpr ?_
  let get₇ : PorcupineOperation :=
    { clientId := 2, input := { op := .get, key := [7] },
      output := { known := true, res := { status := .ok, value := some [1], version := 1 } }, call := 2, ret := 3 }
  let put₇ : PorcupineOperation :=
    { clientId := 1, input := { op := .put, key := [7], value := some [1] },
      output := { known := true, res := { status := .ok, version := 1 } }, call := 1, ret := 5 }
  let get₈ : PorcupineOperation :=
    { clientId := 1, input := { op := .get, key := [8] },
      output := { known := true, res := { status := .notFound } }, call := 6, ret := 7 }
  let put₈ : PorcupineOperation :=
    { clientId := 3, input := { op := .put, key := [8], value := some [2] },
      output := {}, call := 4, ret := Int64.maxValue }
  have hgroups : partition overlapping.checked = [[get₇,put₇],[get₈,put₈]] := by decide +kernel
  rw [hgroups]
  intro group hgroup
  rcases List.mem_cons.mp hgroup with rfl | hgroup
  · -- The read returned first, and comes second.
    have hresp : [put₇,get₇].Pairwise fun x y => ¬ y.ret.toInt < x.call.toInt := by decide
    exact ⟨[put₇,get₇],⟨.swap ..,hresp⟩,{},by decide,⟨true,[1],1⟩,⟨true,[1],1⟩,by unfold KeyStep; decide,
      ⟨true,[1],1⟩,by unfold KeyStep; decide,rfl⟩
  obtain rfl := List.mem_singleton.mp hgroup
  have hresp : [get₈,put₈].Pairwise fun x y => ¬ y.ret.toInt < x.call.toInt := by decide
  exact ⟨[get₈,put₈],⟨.refl _,hresp⟩,{},by decide,{},{},by unfold KeyStep; decide,{},by unfold KeyStep; decide,rfl⟩

end Parallax.Lin
