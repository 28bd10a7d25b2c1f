import Mathlib.Data.List.Induction
import Parallax.Kv.Snapshot

/-! Session deduplication: whatever is retried, reordered or duplicated, and wherever the machine is
saved and restored in between, the data is that of executing every fresh command once. -/
namespace Parallax.Kv
open Std (ExtTreeMap)

/-- A command whose Seq is above every earlier one of its client. -/
def Fresh (earlier : List Command) (cmd : Command) : Prop :=
  ∀ c ∈ earlier, c.clientID = cmd.clientID → c.seq < cmd.seq

instance (earlier : List Command) (cmd : Command) : Decidable (Fresh earlier cmd) :=
  inferInstanceAs (Decidable (∀ c ∈ earlier, _))

def freshAfter (earlier : List Command) : List Command → List Command
  | [] => []
  | cmd :: cmds =>
    if Fresh earlier cmd then cmd :: freshAfter (earlier ++ [cmd]) cmds else freshAfter (earlier ++ [cmd]) cmds

/-- The fresh commands of a list, in order. -/
def fresh (cmds : List Command) : List Command := freshAfter [] cmds

private theorem freshAfter_append (earlier cmds cmds' : List Command) :
    freshAfter earlier (cmds ++ cmds') = freshAfter earlier cmds ++ freshAfter (earlier ++ cmds) cmds' := by
  induction cmds generalizing earlier with
  | nil => simp [freshAfter]
  | cons cmd cmds ih =>
    rw [List.cons_append,freshAfter,freshAfter,ih]
    split <;> simp

private theorem fresh_append_singleton (cmds : List Command) (cmd : Command) :
    fresh (cmds ++ [cmd]) = if Fresh cmds cmd then fresh cmds ++ [cmd] else fresh cmds := by
  rw [fresh,freshAfter_append,List.nil_append]
  simp only [freshAfter]
  split
  · rfl
  · rw [List.append_nil]
    rfl

/-- A key and a value that the formats can hold. -/
def Command.Fits (cmd : Command) : Prop := cmd.key.length < 2 ^ 32 ∧ Short cmd.value

instance (cmd : Command) : Decidable cmd.Fits := inferInstanceAs (Decidable (_ ∧ _))

namespace StateMachine

/-- What happens to a replica's machine: a command, or its snapshot restored into some machine that takes over. -/
inductive Act
  | apply (cmd : Command)
  | restore (other : StateMachine)

def Act.command? : Act → Option Command
  | .apply cmd => some cmd
  | .restore _ => none

def act (m : StateMachine) : Act → Option StateMachine
  | .apply cmd => (m.apply cmd).map Prod.snd
  | .restore other => some (other.restore m.snapshot).1

/-- Execution without sessions, and the results in order. -/
def executeNext (done : StateMachine × List (Command × Result)) (cmd : Command) :
    Option (StateMachine × List (Command × Result)) :=
  (done.1.execute cmd).map fun (res,m) => (m,done.2 ++ [(cmd,res)])

def executeAll (cmds : List Command) : Option (StateMachine × List (Command × Result)) :=
  cmds.foldlM executeNext ({},[])

/-- The session that the last execution for a client leaves. -/
def sessionOf (executed : List (Command × Result)) (id : UInt64) : Option Session :=
  (executed.filter fun p => p.1.clientID = id).getLast?.map fun p => { lastSeq := p.1.seq, lastResult := p.2 }

private theorem sessionOf_append (executed : List (Command × Result)) (cmd : Command) (res : Result) (id : UInt64) :
    sessionOf (executed ++ [(cmd,res)]) id =
      if cmd.clientID = id then some { lastSeq := cmd.seq, lastResult := res } else sessionOf executed id := by
  rw [sessionOf,List.filter_append,List.filter_singleton]
  split <;> rename_i h <;> simp [h,sessionOf]

/-- The largest Seq of a client so far, with a command that has it. -/
def Greatest (cmds : List Command) (id seq : UInt64) : Prop :=
  (∃ cmd ∈ cmds, cmd.clientID = id ∧ cmd.seq = seq) ∧ ∀ cmd ∈ cmds, cmd.clientID = id → cmd.seq ≤ seq

/-- A machine that went through `cmds`, and the plain execution of the fresh ones. -/
structure Tracks (m : StateMachine) (cmds : List Command) (done : StateMachine × List (Command × Result)) : Prop where
  data : m.data = done.1.data
  sessions : ∀ id, m.sessions[id]? = sessionOf done.2 id
  greatest : ∀ id sess, m.sessions[id]? = some sess → Greatest cmds id sess.lastSeq
  unseen : ∀ id, m.sessions[id]? = none → ∀ cmd ∈ cmds, cmd.clientID ≠ id

theorem Tracks.fresh_iff {m : StateMachine} {cmds : List Command} {done : StateMachine × List (Command × Result)}
    (h : m.Tracks cmds done) (cmd : Command) :
    Fresh cmds cmd ↔ ∀ sess, m.sessions[cmd.clientID]? = some sess → sess.lastSeq < cmd.seq := by
  constructor
  · intro hf sess hsess
    obtain ⟨c,hc,hid,hseq⟩ := (h.greatest _ _ hsess).1
    rw [← hseq]
    exact hf c hc hid
  intro hlast c hc hid
  cases hsess : m.sessions[cmd.clientID]? with
  | none => exact absurd hid (h.unseen _ hsess c hc)
  | some sess => exact UInt64.lt_of_le_of_lt ((h.greatest _ _ hsess).2 c hc hid) (hlast sess hsess)

theorem apply_of_le {m : StateMachine} {cmd : Command} {sess : Session} (h : m.sessions[cmd.clientID]? = some sess)
    (hle : cmd.seq ≤ sess.lastSeq) :
    m.apply cmd = some (if cmd.seq = sess.lastSeq then sess.lastResult else { status := .staleSeq },m) := by
  rw [apply,h]
  dsimp only
  split
  · rfl
  · rename_i hne
    rw [if_pos (UInt64.lt_of_le_of_ne hle hne)]

theorem apply_of_lt {m : StateMachine} {cmd : Command}
    (h : ∀ sess, m.sessions[cmd.clientID]? = some sess → sess.lastSeq < cmd.seq) : m.apply cmd = m.advance cmd := by
  rw [apply]
  split
  · rename_i sess hsess
    have hlt := h sess hsess
    rw [if_neg fun heq => UInt64.lt_irrefl _ (heq ▸ hlt),if_neg (UInt64.lt_asymm hlt)]
  · rfl

theorem Tracks.init : ({} : StateMachine).Tracks [] ({},[]) where
  data := rfl
  sessions id := by simp [sessionOf]
  greatest id sess h := by simp at h
  unseen _ _ cmd h := absurd h (List.not_mem_nil)

/-- A command that is not fresh. -/
theorem Tracks.repeated {m : StateMachine} {cmds : List Command} {done : StateMachine × List (Command × Result)}
    (h : m.Tracks cmds done) {cmd : Command} (hf : ¬Fresh cmds cmd) :
    m.act (.apply cmd) = some m ∧ m.Tracks (cmds ++ [cmd]) done := by
  rw [h.fresh_iff] at hf
  push Not at hf
  obtain ⟨sess,hsess,hlt⟩ := hf
  have hle := UInt64.not_lt.mp hlt
  refine ⟨by rw [act,apply_of_le hsess hle]; rfl,h.data,h.sessions,fun id s hs => ?_,fun id hid c hc => ?_⟩
  · obtain ⟨⟨c,hc,hget⟩,hall⟩ := h.greatest id s hs
    refine ⟨⟨c,List.mem_append_left _ hc,hget⟩,fun c' hc' hid => ?_⟩
    rcases List.mem_append.mp hc' with hc' | hc'
    · exact hall c' hc' hid
    obtain rfl := List.mem_singleton.mp hc'
    rw [hid] at hsess
    obtain rfl := Option.some.inj (hsess.symm.trans hs)
    exact hle
  rcases List.mem_append.mp hc with hc | hc
  · exact h.unseen id hid c hc
  obtain rfl := List.mem_singleton.mp hc
  rintro rfl
  rw [hsess] at hid
  cases hid

/-- A fresh command runs on both sides. -/
theorem Tracks.fresh {m : StateMachine} {cmds : List Command} {done : StateMachine × List (Command × Result)}
    (h : m.Tracks cmds done) {cmd : Command} (hf : Fresh cmds cmd) :
    (executeNext done cmd = none ∧ m.act (.apply cmd) = none) ∨
      ∃ m' done', executeNext done cmd = some done' ∧ m.act (.apply cmd) = some m' ∧
        m'.Tracks (cmds ++ [cmd]) done' := by
  have hboth := execute_data h.data cmd
  have happly : m.act (.apply cmd) = (m.advance cmd).map Prod.snd := by
    rw [act,apply_of_lt ((h.fresh_iff cmd).mp hf)]
  cases hexec : done.1.execute cmd with
  | none =>
    rw [hexec,Option.map_none,Option.map_eq_none_iff] at hboth
    exact .inl ⟨by rw [executeNext,hexec]; rfl,by rw [happly,advance,hboth]; rfl⟩
  | some r =>
    obtain ⟨res,d'⟩ := r
    rw [hexec,Option.map_some,Option.map_eq_some_iff] at hboth
    obtain ⟨⟨res',m'⟩,hm',heq⟩ := hboth
    obtain ⟨rfl,hdata⟩ := Prod.mk.inj heq
    refine .inr ⟨_,_,by rw [executeNext,hexec]; rfl,by rw [happly,advance,hm']; rfl,hdata,fun id => ?_,
      fun id sess hsess => ?_,fun id hid c hc => ?_⟩
    · dsimp only
      rw [sessionOf_append,ExtTreeMap.getElem?_insert,execute_sessions hm',h.sessions]
      simp only [Std.compare_eq_iff_eq]
    · dsimp only at hsess
      rw [ExtTreeMap.getElem?_insert,execute_sessions hm'] at hsess
      simp only [Std.compare_eq_iff_eq] at hsess
      split at hsess
      · rename_i hid
        cases hsess
        refine ⟨⟨cmd,List.mem_append_right _ (List.mem_singleton_self _),hid,rfl⟩,fun c hc hcid => ?_⟩
        rcases List.mem_append.mp hc with hc | hc
        · exact UInt64.le_of_lt (hf c hc (hcid.trans hid.symm))
        · rw [List.mem_singleton.mp hc]
          exact UInt64.le_refl _
      rename_i hid
      obtain ⟨⟨c,hc,hget⟩,hall⟩ := h.greatest id sess hsess
      refine ⟨⟨c,List.mem_append_left _ hc,hget⟩,fun c' hc' hcid => ?_⟩
      rcases List.mem_append.mp hc' with hc' | hc'
      · exact hall c' hc' hcid
      · exact absurd (List.mem_singleton.mp hc' ▸ hcid) hid
    rw [ExtTreeMap.getElem?_insert,execute_sessions hm'] at hid
    simp only [Std.compare_eq_iff_eq] at hid
    split at hid
    · cases hid
    rename_i hne
    rcases List.mem_append.mp hc with hc | hc
    · exact h.unseen id hid c hc
    · rw [List.mem_singleton.mp hc]
      exact hne

/-- A machine that at most `n` commands went through. -/
structure Bounded (m : StateMachine) (n : Nat) : Prop where
  keys : ∀ (k : Bytes) (rec : ValueRecord), m.data[k]? = some rec → k.length < 2 ^ 32 ∧ Short rec.value
  results : ∀ (id : UInt64) (sess : Session), m.sessions[id]? = some sess → Short sess.lastResult.value
  dataSize : m.data.size ≤ n
  sessionSize : m.sessions.size ≤ n

theorem Bounded.fits {m : StateMachine} {n : Nat} (h : m.Bounded n) (hn : n < 2 ^ 64) : m.Fits :=
  ⟨h.keys,h.results,Nat.lt_of_le_of_lt h.dataSize hn,Nat.lt_of_le_of_lt h.sessionSize hn⟩

theorem Bounded.init : ({} : StateMachine).Bounded 0 where
  keys k rec h := by simp at h
  results id sess h := by simp at h
  dataSize := Nat.le_of_eq ExtTreeMap.size_empty
  sessionSize := Nat.le_of_eq ExtTreeMap.size_empty

theorem Bounded.mono {m : StateMachine} {n n' : Nat} (h : m.Bounded n) (hn : n ≤ n') : m.Bounded n' :=
  ⟨h.keys,h.results,Nat.le_trans h.dataSize hn,Nat.le_trans h.sessionSize hn⟩

theorem Bounded.advance {m m' : StateMachine} {cmd : Command} {res : Result} {n : Nat} (h : m.Bounded n)
    (hcmd : cmd.Fits) (hadv : m.advance cmd = some (res,m')) : m'.Bounded (n + 1) := by
  rw [StateMachine.advance,Option.map_eq_some_iff] at hadv
  obtain ⟨⟨res',m₁⟩,hexec,heq⟩ := hadv
  obtain ⟨rfl,rfl⟩ := Prod.mk.inj heq
  obtain ⟨hres,hdata,-⟩ := execute_cases hexec
  refine ⟨fun k rec hrec => ?_,fun id sess hsess => ?_,?_,?_⟩
  · dsimp only at hrec
    rcases hdata with hd | ⟨version,hd⟩ | hd
    · exact h.keys k rec (hd ▸ hrec)
    · rw [hd,ExtTreeMap.getElem?_insert] at hrec
      split at hrec
      · rename_i hk
        cases hrec
        rw [← Std.LawfulEqCmp.eq_of_compare hk]
        exact hcmd
      · exact h.keys k rec hrec
    rw [hd,ExtTreeMap.getElem?_erase] at hrec
    split at hrec
    · cases hrec
    · exact h.keys k rec hrec
  · dsimp only at hsess
    rw [ExtTreeMap.getElem?_insert,execute_sessions hexec] at hsess
    split at hsess
    · cases hsess
      rcases hres with hnone | ⟨rec,hrec,hval⟩
      · show Short res'.value
        rw [hnone]
        decide
      show Short res'.value
      rw [hval]
      exact (h.keys _ _ hrec).2
    · exact h.results id sess hsess
  · have := h.dataSize
    rcases hdata with hd | ⟨version,hd⟩ | hd <;> rw [hd]
    · omega
    · exact Nat.le_trans ExtTreeMap.size_insert_le (by omega)
    · exact Nat.le_trans ExtTreeMap.size_erase_le (by omega)
  have := h.sessionSize
  rw [execute_sessions hexec]
  exact Nat.le_trans ExtTreeMap.size_insert_le (by omega)

theorem Bounded.apply {m m' : StateMachine} {cmd : Command} {n : Nat} (h : m.Bounded n) (hcmd : cmd.Fits)
    (hact : m.act (.apply cmd) = some m') : m'.Bounded (n + 1) := by
  obtain ⟨⟨res,m₁⟩,happ,rfl⟩ := Option.map_eq_some_iff.mp hact
  unfold StateMachine.apply at happ
  have hsame := h.mono (Nat.le_succ n)
  split at happ
  · split at happ
    · cases happ
      exact hsame
    split at happ
    · cases happ
      exact hsame
    · exact h.advance hcmd happ
  · exact h.advance hcmd happ

def commands (acts : List Act) : List Command := acts.filterMap Act.command?

/-- If snapshots are taken, the format must hold what is in them. -/
def Savable (acts : List Act) : Prop :=
  ∀ other, .restore other ∈ acts → (∀ cmd ∈ commands acts, cmd.Fits) ∧ (commands acts).length < 2 ^ 64

theorem Savable.init {acts : List Act} {a : Act} (h : Savable (acts ++ [a])) : Savable acts := fun other ho =>
  have ⟨hfits,hlen⟩ := h other (List.mem_append_left _ ho)
  have hcmds : commands (acts ++ [a]) = commands acts ++ commands [a] := List.filterMap_append
  ⟨fun cmd hcmd => hfits cmd (hcmds ▸ List.mem_append_left _ hcmd),
    Nat.lt_of_le_of_lt (by rw [hcmds,List.length_append]; exact Nat.le_add_right ..) hlen⟩

theorem run_tracks {acts : List Act} (hs : Savable acts) :
    (executeAll (fresh (commands acts)) = none ∧ acts.foldlM act {} = none) ∨
      ∃ m done, executeAll (fresh (commands acts)) = some done ∧ acts.foldlM act {} = some m ∧
        m.Tracks (commands acts) done ∧
        ((∀ cmd ∈ commands acts, cmd.Fits) → m.Bounded (commands acts).length) := by
  induction acts using List.reverseRecOn with
  | nil => exact .inr ⟨_,_,rfl,rfl,.init,fun _ => .init⟩
  | append_singleton acts a ih =>
    have ih := ih hs.init
    have hrun : (acts ++ [a]).foldlM act {} = (acts.foldlM act {}).bind (act · a) := by
      rw [List.foldlM_append]
      cases acts.foldlM act {} <;> simp
    cases a with
    | restore other =>
      have hcmds : commands (acts ++ [.restore other]) = commands acts := by simp [commands,Act.command?]
      have ⟨hfits,hlen⟩ := hs other (List.mem_append_right _ (List.mem_singleton_self _))
      rw [hcmds] at hfits hlen
      rw [hrun,hcmds]
      rcases ih with ⟨hnone,hpanic⟩ | ⟨m,done,hdone,hm,htracks,hbounded⟩
      · exact .inl ⟨hnone,by rw [hpanic]; rfl⟩
      · refine .inr ⟨m,done,hdone,?_,htracks,hbounded⟩
        rw [hm,Option.bind_some,act,restore_snapshot ((hbounded hfits).fits hlen)]
    | apply cmd =>
      have hcmds : commands (acts ++ [.apply cmd]) = commands acts ++ [cmd] := by simp [commands,Act.command?]
      have hall : ∀ cmds, executeAll (cmds ++ [cmd]) = (executeAll cmds).bind (executeNext · cmd) := by
        intro cmds
        rw [executeAll,List.foldlM_append,← executeAll]
        cases executeAll cmds <;> simp
      have hbound : ∀ {m m' : StateMachine}, ((∀ cmd ∈ commands acts, cmd.Fits) → m.Bounded (commands acts).length) →
          m.act (.apply cmd) = some m' → (∀ c ∈ commands acts ++ [cmd], c.Fits) →
          m'.Bounded (commands acts ++ [cmd]).length := by
        intro m m' hb hm' hfits
        rw [List.length_append,List.length_singleton]
        exact (hb fun c hc => hfits c (List.mem_append_left _ hc)).apply
          (hfits cmd (List.mem_append_right _ (List.mem_singleton_self _))) hm'
      rw [hrun,hcmds,fresh_append_singleton]
      rcases ih with ⟨hnone,hpanic⟩ | ⟨m,done,hdone,hm,htracks,hbounded⟩
      · refine .inl ⟨?_,by rw [hpanic]; rfl⟩
        split
        · rw [hall,hnone]
          rfl
        · exact hnone
      rw [hm]
      split
      · rename_i hf
        rw [hall,hdone]
        rcases htracks.fresh hf with ⟨hnone,hpanic⟩ | ⟨m',done',hdone',hm',htracks'⟩
        · exact .inl ⟨hnone,hpanic⟩
        · exact .inr ⟨m',done',hdone',hm',htracks',hbound hbounded hm'⟩
      rename_i hf
      obtain ⟨hsame,htracks'⟩ := htracks.repeated hf
      exact .inr ⟨m,done,hdone,hsame,htracks',hbound hbounded hsame⟩

/-- Exactly-once application. The machine's data is that of executing the fresh commands; a session holds the
largest Seq of its client with the result of that execution; repeated and stale commands change nothing. -/
theorem apply_exactly_once {acts : List Act} (hs : Savable acts) :
    (executeAll (fresh (commands acts)) = none ↔ acts.foldlM act {} = none) ∧
    ∀ m done, acts.foldlM act {} = some m → executeAll (fresh (commands acts)) = some done →
      m.data = done.1.data ∧
      (∀ id, m.sessions[id]? = sessionOf done.2 id) ∧
      (∀ id sess, m.sessions[id]? = some sess → Greatest (commands acts) id sess.lastSeq) ∧
      (∀ id, m.sessions[id]? = none ↔ ∀ cmd ∈ commands acts, cmd.clientID ≠ id) ∧
      ∀ cmd sess, m.sessions[cmd.clientID]? = some sess →
        (cmd.seq = sess.lastSeq → m.apply cmd = some (sess.lastResult,m)) ∧
        (cmd.seq < sess.lastSeq → m.apply cmd = some ({ status := .staleSeq },m)) := by
  rcases run_tracks hs with ⟨hnone,hpanic⟩ | ⟨m,done,hdone,hm,h,-⟩
  · refine ⟨by rw [hnone,hpanic]; simp,fun m done hm => ?_⟩
    rw [hpanic] at hm
    cases hm
  refine ⟨by rw [hdone,hm]; simp,fun m' done' hm' hdone' => ?_⟩
  obtain rfl := Option.some.inj (hm.symm.trans hm')
  obtain rfl := Option.some.inj (hdone.symm.trans hdone')
  refine ⟨h.data,h.sessions,h.greatest,fun id => ⟨h.unseen id,fun hid => ?_⟩,fun cmd sess hsess =>
    ⟨fun heq => ?_,fun hlt => ?_⟩⟩
  · rw [Option.eq_none_iff_forall_ne_some]
    intro sess hsess
    obtain ⟨cmd,hcmd,hcid,-⟩ := (h.greatest id sess hsess).1
    exact hid cmd hcmd hcid
  · rw [apply_of_le hsess (heq ▸ UInt64.le_refl _),if_pos heq]
  · rw [apply_of_le hsess (UInt64.le_of_lt hlt),if_neg fun heq => UInt64.lt_irrefl _ (heq ▸ hlt)]

/-- A conditional write by one client, a write by another and a save in between, then the first one retried and a
late duplicate of the second one's first command. -/
theorem apply_exactly_once_retry :
    let cas : Command := { op := .cas, clientID := 1, seq := 4, key := [107], value := some [1] }
    let put : Command := { op := .put, clientID := 2, seq := 1, key := [107], value := some [2] }
    let acts : List Act := [.apply put,.apply cas,.apply { put with seq := 2 },.restore {},.apply cas,.apply put]
    Savable acts ∧ fresh (commands acts) = [put,cas,{ put with seq := 2 }] ∧
      (acts.foldlM act {}).map (·.data) = (executeAll (fresh (commands acts))).map (·.1.data) := by
  intro cas put acts
  have hs : Savable acts := fun _ _ => ⟨by decide,by decide⟩
  have hmain := apply_exactly_once hs
  refine ⟨hs,by decide,?_⟩
  cases hm : acts.foldlM act {} with
  | none => rw [hmain.1.mpr hm]; rfl
  | some m =>
    cases hd : executeAll (fresh (commands acts)) with
    | none =>
      rw [hmain.1.mp hd] at hm
      cases hm
    | some done =>
      exact congrArg some (hmain.2 m done hm hd).1

end StateMachine
end Parallax.Kv
