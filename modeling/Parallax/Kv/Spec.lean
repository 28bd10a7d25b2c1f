import Parallax.Kv.Replica
import Parallax.Linear.History

/-! The sequential key-value store that clients see, and the replicated machine against it: along a log, the data is
what the fresh commands make of the empty store, each executed once. -/
namespace Parallax.Kv
open Std (ExtTreeMap)
open Linear (Object)

/-- An operation as the service receives it. -/
inductive Operation where
  | get (key : Bytes)
  | put (key : Bytes) (value : Option Bytes)
  | delete (key : Bytes)
  | cas (key : Bytes) (expect value : Option Bytes)
  deriving DecidableEq, Repr

abbrev Store := Bytes → Option ValueRecord

namespace Operation

/-- Stores a value under the next version. -/
def write (st : Store) (key : Bytes) (value : Option Bytes) : Store × Result :=
  let version := ((st key).map ValueRecord.version).getD 0 + 1
  (Function.update st key (some { value, version }),{ status := .ok, version := version })

/-- The sequential specification. -/
def run (st : Store) : Operation → Store × Result
  | .get key => (st,(st key).elim { status := .notFound } fun rec =>
      { status := .ok, value := rec.value, version := rec.version })
  | .put key value => write st key value
  | .delete key => if (st key).isSome then (Function.update st key none,{ status := .ok }) else (st,{ status := .notFound })
  | .cas key expect value =>
    let mismatch : Result := (st key).elim { status := .casMismatch } fun rec =>
      { status := .casMismatch, value := rec.value, version := rec.version }
    match expect with
    -- Create if absent.
    | none => if (st key).isNone then write st key value else (st,mismatch)
    | some expect => if (st key).map (fun rec => rec.value.getD []) = some expect then write st key value
      else (st,mismatch)

def command (clientID seq : UInt64) : Operation → Command
  | .get key => { clientID, seq, op := .get, key }
  | .put key value => { clientID, seq, op := .put, key, value }
  | .delete key => { clientID, seq, op := .delete, key }
  | .cas key expect value => { clientID, seq, op := .cas, key, value, expect }

def ofCommand (cmd : Command) : Operation :=
  match cmd.op with
  | .put => .put cmd.key cmd.value
  | .delete => .delete cmd.key
  | .cas => .cas cmd.key cmd.expect cmd.value
  | .get | .invalid | .other _ => .get cmd.key

@[simp] theorem ofCommand_command (op : Operation) (clientID seq : UInt64) : ofCommand (op.command clientID seq) = op := by
  cases op <;> rfl

@[simp] theorem command_clientID (op : Operation) (clientID seq : UInt64) : (op.command clientID seq).clientID = clientID := by
  cases op <;> rfl

@[simp] theorem command_seq (op : Operation) (clientID seq : UInt64) : (op.command clientID seq).seq = seq := by
  cases op <;> rfl

/-- Sizes that the command format can hold. -/
def Fits : Operation → Prop
  | .get _ => True
  | .put key value => key.length < 2 ^ 32 ∧ Short value
  | .delete key => key.length < 2 ^ 32
  | .cas key expect value => key.length < 2 ^ 32 ∧ Short value ∧ Short expect

instance : (op : Operation) → Decidable op.Fits
  | .get _ => isTrue trivial
  | .put _ _ | .delete _ | .cas _ _ _ => by unfold Fits; infer_instance

def IsGet : Operation → Prop
  | .get _ => True
  | .put _ _ | .delete _ | .cas _ _ _ => False

theorem decode_command {op : Operation} (h : op.Fits) (hw : ¬ op.IsGet) (clientID seq : UInt64) :
    decodeCommand (encodeCommand (op.command clientID seq)) = .ok (op.command clientID seq) := by
  cases op with
  | get key => exact absurd trivial hw
  | put key value => exact run_ok (takes_command (by simp [command]) h.1 h.2 (Nat.two_pow_pos 32))
  | delete key => exact run_ok (takes_command (by simp [command]) h (Nat.two_pow_pos 32) (Nat.two_pow_pos 32))
  | cas key expect value => exact run_ok (takes_command (by simp [command]) h.1 h.2.1 h.2.2)

/-- An encoding of less than 4 GiB has no length that does not fit. -/
theorem fits_of_length {op : Operation} {clientID seq : UInt64}
    (h : (encodeCommand (op.command clientID seq)).length < 2 ^ 32) : op.Fits := by
  have hopt : ∀ (buf : Bytes) (b : Option Bytes), buf.length + (b.getD []).length ≤ (appendOptBytes buf b).length := by
    intro buf b
    cases b <;> simp [appendOptBytes,appendUint32]
    omega
  have hle : ∀ c : Command, c.key.length + (c.value.getD []).length + (c.expect.getD []).length ≤
      (encodeCommand c).length := by
    intro c
    unfold encodeCommand
    refine le_trans ?_ (hopt _ c.expect)
    refine Nat.add_le_add_right (le_trans ?_ (hopt _ c.value)) _
    exact Nat.add_le_add_right (by simp [appendString]) _
  have hlen := hle (op.command clientID seq)
  cases op <;> simp only [command,Option.getD_none,List.length_nil] at hlen h <;> unfold Fits
  · trivial
  · exact ⟨by omega,by unfold Short; omega⟩
  · omega
  · exact ⟨by omega,by unfold Short; omega,by unfold Short; omega⟩

end Operation

def kvObject : Object Store Operation Result := ⟨fun _ => none,Operation.run⟩

namespace StateMachine

def lookup (m : StateMachine) : Store := fun key => m.data[key]?

private theorem lookup_insert (m : StateMachine) (key : Bytes) (rec : ValueRecord) :
    ({ m with data := m.data.insert key rec } : StateMachine).lookup = Function.update m.lookup key (some rec) := by
  funext k
  simp only [lookup,ExtTreeMap.getElem?_insert,Std.compare_eq_iff_eq,Function.update_apply,eq_comm (a := key)]

private theorem lookup_erase (m : StateMachine) (key : Bytes) :
    ({ m with data := m.data.erase key } : StateMachine).lookup = Function.update m.lookup key none := by
  funext k
  simp only [lookup,ExtTreeMap.getElem?_erase,Std.compare_eq_iff_eq,Function.update_apply,eq_comm (a := key)]

private theorem store_eq (m : StateMachine) (key : Bytes) (value : Option Bytes) :
    ((m.store key value).2.lookup,(m.store key value).1) = Operation.write m.lookup key value := by
  simp only [store,lookup_insert,Operation.write]
  rfl

theorem read_eq (m : StateMachine) (key : Bytes) :
    kvObject.step m.lookup (.get key) = (m.lookup,m.read key) := by
  simp only [kvObject,Operation.run,read,get,lookup]
  cases m.data[key]? <;> rfl

/-- Execution is the sequential specification. -/
theorem execute_command (m : StateMachine) (op : Operation) (clientID seq : UInt64) :
    ∃ res m', m.execute (op.command clientID seq) = some (res,m') ∧ kvObject.step m.lookup op = (m'.lookup,res) := by
  cases op with
  | get key => exact ⟨_,_,rfl,m.read_eq key⟩
  | put key value => exact ⟨_,_,rfl,(m.store_eq key value).symm⟩
  | delete key =>
    simp only [execute,Operation.command,kvObject,Operation.run]
    cases hrec : m.data[key]? with
    | none => exact ⟨_,_,rfl,by simp [lookup,hrec]⟩
    | some rec => exact ⟨_,_,rfl,by rw [lookup_erase]; simp [lookup,hrec]⟩
  | cas key expect value =>
    refine ⟨_,_,rfl,?_⟩
    simp only [kvObject,Operation.run,Operation.command]
    cases hrec : m.data[key]? with
    | none =>
      cases expect with
      | none =>
        simp only [hrec,lookup,Option.isNone_none,if_true]
        exact (m.store_eq key value).symm
      | some expect => simp [hrec,lookup]
    | some rec =>
      cases expect with
      | none => simp [hrec,lookup]
      | some expect =>
        by_cases heq : rec.value.getD [] = expect
        · simp only [hrec,lookup,Option.map_some,heq,if_true,ne_eq,not_true_eq_false,if_false]
          exact (m.store_eq key value).symm
        · simp [hrec,lookup,heq]

theorem execute_step {m m' : StateMachine} {cmd : Command} {res : Result} (h : m.execute cmd = some (res,m')) :
    kvObject.step m.lookup (Operation.ofCommand cmd) = (m'.lookup,res) := by
  obtain ⟨res₁,m₁,hexec,hstep⟩ := m.execute_command (Operation.ofCommand cmd) cmd.clientID cmd.seq
  have hsame : m.execute cmd = m.execute ((Operation.ofCommand cmd).command cmd.clientID cmd.seq) := by
    unfold Operation.ofCommand
    cases hop : cmd.op with
    | get | put | delete | cas => simp only [execute,hop,Operation.command,cas]
    | invalid | other =>
      rw [execute,hop] at h
      cases h
  rw [← hsame,h] at hexec
  obtain ⟨rfl,rfl⟩ := Prod.mk.inj (Option.some.inj hexec)
  exact hstep

/-- The command an entry carries. -/
def command? (e : Entry) : Option Command :=
  if e.type = .normal ∧ e.data.length > 0 then (decodeCommand e.data).toOption else none

def commandsOf (xs : List Entry) : List Command := xs.filterMap command?

private theorem command?_known {e : Entry} {cmd : Command} (h : command? e = some cmd) :
    cmd.op ∈ [.get,.put,.delete,.cas] := by
  unfold command? at h
  split at h
  · cases hd : decodeCommand e.data with
    | error _ =>
      rw [hd] at h
      cases h
    | ok cmd' =>
      rw [hd] at h
      obtain rfl : cmd' = cmd := Option.some.inj h
      exact (decodeCommand_ok hd).op
  · cases h

theorem applyEntry_eq (m : StateMachine) (e : Entry) :
    m.applyEntry e = match command? e with
      | none => (m,none)
      | some cmd => match m.apply cmd with
        | none => (m,none)
        | some (res,m') => (m',some (cmd,res)) := by
  unfold applyEntry command?
  split
  · cases decodeCommand e.data <;> rfl
  · rfl

theorem fold_append_singleton (xs : List Entry) (e : Entry) : fold (xs ++ [e]) = ((fold xs).applyEntry e).1 := by
  unfold fold
  rw [List.foldl_append]
  rfl

/-- Behind `zs`, entry `e` is the first with its command, which gives `res`. -/
structure Executes (zs : List Entry) (e : Entry) (cmd : Command) (res : Result) : Prop where
  command : command? e = some cmd
  fresh : Fresh (commandsOf zs) cmd
  result : ∃ m', (fold zs).execute cmd = some (res,m')

/-- A command is executed once. -/
theorem Executes.unique {zs zs' : List Entry} {e e' : Entry} {cmd cmd' : Command} {res res' : Result}
    (h : Executes zs e cmd res) (h' : Executes zs' e' cmd' res') (hp : zs ++ [e] <+: zs')
    (hid : cmd.clientID = cmd'.clientID) : cmd.seq < cmd'.seq := by
  obtain ⟨ws,rfl⟩ := hp
  exact h'.fresh cmd (by simp [commandsOf,h.command]) hid

theorem fold_tracks (xs : List Entry) : ∃ done, (fold xs).Tracks (commandsOf xs) done ∧
    ∀ p ∈ done.2, ∃ zs e, zs ++ [e] <+: xs ∧ Executes zs e p.1 p.2 := by
  induction xs using List.reverseRecOn with
  | nil => exact ⟨_,Tracks.init,by simp⟩
  | append_singleton xs e ih =>
    obtain ⟨done,ht,hex⟩ := ih
    have hold : ∀ p ∈ done.2, ∃ zs e', zs ++ [e'] <+: xs ++ [e] ∧ Executes zs e' p.1 p.2 := fun p hp =>
      let ⟨zs,e',hpre,h⟩ := hex p hp
      ⟨zs,e',hpre.trans (List.prefix_append _ _),h⟩
    have hcmds : commandsOf (xs ++ [e]) = commandsOf xs ++ (command? e).toList := by
      rw [commandsOf,List.filterMap_append,List.filterMap_cons]
      cases command? e <;> rfl
    rw [fold_append_singleton,applyEntry_eq,hcmds]
    cases hc : command? e with
    | none =>
      rw [Option.toList_none,List.append_nil]
      exact ⟨done,ht,hold⟩
    | some cmd =>
      obtain ⟨⟨res,m'⟩,happ⟩ := Option.isSome_iff_exists.mp ((fold xs).apply_isSome (command?_known hc))
      simp only [happ,Option.toList_some]
      have hact : (fold xs).act (.apply cmd) = some m' := by rw [act,happ]; rfl
      by_cases hf : Fresh (commandsOf xs) cmd
      · rcases ht.fresh hf with ⟨_,hnone⟩ | ⟨m₁,done',hnext,hact',ht'⟩
        · rw [hact] at hnone
          cases hnone
        rw [hact] at hact'
        obtain rfl := Option.some.inj hact'
        refine ⟨done',ht',fun p hp => ?_⟩
        obtain ⟨⟨res₁,d₁⟩,hexec,rfl⟩ := Option.map_eq_some_iff.mp hnext
        rcases List.mem_append.mp hp with hp | hp
        · exact hold p hp
        obtain rfl := List.mem_singleton.mp hp
        have hdata := execute_data ht.data cmd
        rw [hexec,Option.map_some,Option.map_eq_some_iff] at hdata
        obtain ⟨⟨res₂,m₂⟩,hm₂,heq⟩ := hdata
        obtain ⟨rfl,_⟩ := Prod.mk.inj heq
        exact ⟨xs,e,List.prefix_rfl,hc,hf,m₂,hm₂⟩
      obtain ⟨hsame,ht'⟩ := ht.repeated hf
      rw [hact] at hsame
      obtain rfl := Option.some.inj hsame
      exact ⟨done,ht',hold⟩

/-- A command that is not outdated is answered by its one execution. -/
theorem apply_result {ys : List Entry} {e : Entry} {cmd : Command} {res : Result} {m' : StateMachine}
    (hc : command? e = some cmd) (happ : (fold ys).apply cmd = some (res,m'))
    (hlast : ∀ c ∈ commandsOf ys, c.clientID = cmd.clientID → c.seq ≤ cmd.seq) :
    ∃ zs e' cmd', zs ++ [e'] <+: ys ++ [e] ∧ Executes zs e' cmd' res ∧ cmd'.clientID = cmd.clientID ∧
      cmd'.seq = cmd.seq := by
  obtain ⟨done,ht,hex⟩ := fold_tracks ys
  by_cases hf : Fresh (commandsOf ys) cmd
  · rw [apply_of_lt ((ht.fresh_iff cmd).mp hf),advance,Option.map_eq_some_iff] at happ
    obtain ⟨⟨res₁,m₁⟩,hexec,heq⟩ := happ
    obtain ⟨rfl,_⟩ := Prod.mk.inj heq
    exact ⟨ys,e,cmd,List.prefix_rfl,⟨hc,hf,m₁,hexec⟩,rfl,rfl⟩
  rw [ht.fresh_iff] at hf
  push Not at hf
  obtain ⟨sess,hsess,hlt⟩ := hf
  have hle := UInt64.not_lt.mp hlt
  obtain ⟨⟨c,hcm,hcid,hcseq⟩,_⟩ := ht.greatest _ _ hsess
  have heq : cmd.seq = sess.lastSeq := UInt64.le_antisymm hle (hcseq ▸ hlast c hcm hcid)
  rw [apply_of_le hsess hle,if_pos heq] at happ
  obtain ⟨rfl,_⟩ := Prod.mk.inj (Option.some.inj happ)
  -- The recorded result is that of the last execution for the client.
  rw [ht.sessions,sessionOf,Option.map_eq_some_iff] at hsess
  obtain ⟨p,hp,rfl⟩ := hsess
  have hmem := List.mem_filter.mp (List.mem_of_getLast? hp)
  obtain ⟨zs,e',hpre,hexe⟩ := hex p hmem.1
  exact ⟨zs,e',p.1,hpre.trans (List.prefix_append _ _),hexe,by simpa using hmem.2,heq.symm⟩

theorem Executes.step {zs : List Entry} {e : Entry} {cmd : Command} {res : Result} (h : Executes zs e cmd res) :
    kvObject.step (fold zs).lookup (Operation.ofCommand cmd) = ((fold (zs ++ [e])).lookup,res) := by
  obtain ⟨done,ht,_⟩ := fold_tracks zs
  obtain ⟨m',hexec⟩ := h.result
  have hstep := execute_step hexec
  rw [fold_append_singleton,applyEntry_eq]
  simp only [h.command,apply_of_lt ((ht.fresh_iff _).mp h.fresh),advance,hexec,Option.map_some]
  exact hstep

theorem fold_step (ys : List Entry) (e : Entry) :
    (∀ op clientID seq, command? e = some (op.command clientID seq) → Fresh (commandsOf ys) (op.command clientID seq) →
      ∃ res, Executes ys e (op.command clientID seq) res ∧
        kvObject.step (fold ys).lookup op = ((fold (ys ++ [e])).lookup,res)) ∧
    ((∀ cmd, command? e = some cmd → ¬ Fresh (commandsOf ys) cmd) → fold (ys ++ [e]) = fold ys) := by
  refine ⟨fun op clientID seq hc hf => ?_,fun hno => ?_⟩
  · obtain ⟨res,m',hexec,_⟩ := (fold ys).execute_command op clientID seq
    have hex : Executes ys e (op.command clientID seq) res := ⟨hc,hf,m',hexec⟩
    exact ⟨res,hex,by simpa using hex.step⟩
  obtain ⟨done,ht,_⟩ := fold_tracks ys
  rw [fold_append_singleton,applyEntry_eq]
  cases hc : command? e with
  | none => rfl
  | some cmd =>
    obtain ⟨hsame,_⟩ := ht.repeated (hno cmd hc)
    rw [act,Option.map_eq_some_iff] at hsame
    obtain ⟨⟨res,m'⟩,happ,rfl⟩ := hsame
    simp only [happ]

end StateMachine
end Parallax.Kv
