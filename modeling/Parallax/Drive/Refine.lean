import Parallax.Cluster.Replication
import Parallax.Drive.Stored

/-! Production nodes refine the nodes of the cluster model: each event of a site is one event of the cluster, or
none. So every site has a cluster behind it, with the same messages and the same cores. -/
namespace Parallax
open Kv

theorem Disk.mem_logOf {off : Nat} {recs : List Disk.Record} : ∀ {es : List Entry}, Disk.logOf off recs = some es →
    ∀ e ∈ es, .entry e ∈ recs := by
  induction recs using List.reverseRecOn with
  | nil =>
    intro es h e he
    obtain rfl := Option.some.inj h
    cases he
  | append_singleton recs rec ih =>
    intro es h e he
    rw [Disk.logOf_append] at h
    obtain ⟨es₀,h₀,h⟩ := Option.bind_eq_some_iff.mp h
    rw [Scan.feed_singleton] at h
    have hold : e ∈ es₀ → .entry e ∈ recs ++ [rec] := fun he => List.mem_append_left _ (ih h₀ e he)
    cases rec with
    | hardState st =>
      obtain rfl := Option.some.inj h
      exact hold he
    | truncate md =>
      obtain rfl := Option.some.inj h
      refine hold ?_
      split_ifs at he
      · cases he
      · exact List.mem_of_mem_take he
      · exact he
    | entry e' =>
      simp only [Disk.logStep] at h
      split at h
      · obtain rfl := Option.some.inj h
        exact hold he
      split at h
      · cases h
      obtain rfl := Option.some.inj h
      rcases List.mem_append.mp he with he | he
      · exact hold (List.mem_of_mem_take he)
      · obtain rfl := List.mem_singleton.mp he
        simp

theorem IndexedFrom.contiguous {k : Nat} {es : List Entry} (h : IndexedFrom k es) : Disk.Contiguous es := by
  rw [Disk.Contiguous,List.isChain_iff_getElem]
  intro i hi
  rw [h i _ (List.getElem?_eq_getElem (by omega)),h (i + 1) _ (List.getElem?_eq_getElem hi)]
  omega

theorem IndexedFrom.pos {k : Nat} {es : List Entry} (h : IndexedFrom k es) : ∀ e ∈ es, 0 < e.index := by
  intro e he
  obtain ⟨i,hi⟩ := List.mem_iff_getElem?.mp he
  rw [h i e hi]
  omega

namespace Drive
open Cluster (Setup Peer Host Hist)

/-- Whatever a storage in use holds was written within the bounds. -/
theorem Stored.fits {stor : Disk.Storage} {d : Parallax.Storage} {buf : List Cluster.Rec} (h : Stored stor d buf) :
    ∀ e ∈ stor.mirror.entries, Disk.EntryFits e := by
  obtain ⟨done,hb,_⟩ := h
  intro e he
  rcases List.mem_append.mp (Disk.mem_logOf hb.log e he) with he | he
  · exact hb.sound.fits_done _ he
  · exact hb.sound.fits _ he

/-- How many read tokens the input takes. -/
def Input.count : Input → UInt64
  | .request (.read _ _) => 1
  | .tick | .recv _ | .request (.propose _) => 0

namespace Server

/-- Core, storage, machine and applied index, which client bookkeeping leaves alone. -/
structure Alike (s s' : Server) : Prop where
  node : s'.node = s.node
  stor : s'.stor = s.stor
  sm : s'.sm = s.sm
  applied : s'.applied = s.applied

namespace Alike

private theorem refl (s : Server) : Alike s s := ⟨rfl,rfl,rfl,rfl⟩

theorem trans {s₁ s₂ s₃ : Server} (h : Alike s₁ s₂) (h' : Alike s₂ s₃) : Alike s₁ s₃ :=
  ⟨h'.node.trans h.node,h'.stor.trans h.stor,h'.sm.trans h.sm,h'.applied.trans h.applied⟩

theorem foldl {α : Type} {f : Server → α → Server} (hf : ∀ s a, Alike s (f s a)) (as : List α) :
    ∀ s, Alike s (as.foldl f s) := by
  induction as with
  | nil => exact refl
  | cons a as ih => exact fun s => (hf s a).trans (ih _)

end Alike

theorem serveRead_alike (s : Server) (rs : ReadState) : Alike s (s.serveRead rs) := by
  unfold serveRead
  split <;> exact ⟨rfl,rfl,rfl,rfl⟩

theorem releaseRead_alike (s : Server) (rs : ReadState) : Alike s (s.releaseRead rs) := by
  unfold releaseRead
  split
  · exact s.serveRead_alike rs
  · exact ⟨rfl,rfl,rfl,rfl⟩

private theorem servePendingReads_alike (s : Server) : Alike s s.servePendingReads := by
  have h := Alike.foldl serveRead_alike (s.pendingReads.filter fun rs => s.applied ≥ rs.index) s
  exact ⟨h.node,h.stor,h.sm,h.applied⟩

theorem completeWrite_alike (s : Server) (op : ClientKey) (res : Result) : Alike s (s.completeWrite op res) := by
  unfold completeWrite
  split <;> exact ⟨rfl,rfl,rfl,rfl⟩

theorem checkLeadership_alike (s : Server) : Alike s s.checkLeadership := by
  unfold checkLeadership
  simp only
  split
  · have h := Alike.foldl (f := fun s resp => s.reply resp (.notLeader s.node.lead)) (fun _ _ => ⟨rfl,rfl,rfl,rfl⟩)
      s.waiting s
    exact ⟨h.node,h.stor,h.sm,h.applied⟩
  · exact ⟨rfl,rfl,rfl,rfl⟩

theorem applyEntry_alike (s : Server) (e : Entry) :
    Alike (if e.index ≤ s.applied then s else { s with applied := e.index, sm := (s.sm.applyEntry e).1 })
      (s.applyEntry e) := by
  unfold applyEntry StateMachine.applyEntry
  split
  · exact .refl s
  split
  · cases decodeCommand e.data with
    | error _ => exact ⟨rfl,rfl,rfl,rfl⟩
    | ok cmd =>
      simp only
      cases s.sm.apply cmd with
      | none => exact ⟨rfl,rfl,rfl,rfl⟩
      | some r =>
        have h := (completeWrite_alike { s with applied := e.index, sm := r.2 } (cmd.clientID,cmd.seq) r.1).trans
          (servePendingReads_alike _)
        exact ⟨h.node,h.stor,h.sm,h.applied⟩
  · exact servePendingReads_alike _

/-- The core's input behind an input of the loop. -/
def cause (s : Server) : Input → Cluster.Input
  | .tick => .tick
  | .recv m => .step m
  | .request (.propose cmd) => .step { type := .propose, entries := [{ type := .normal, data := encodeCommand cmd }] }
  | .request (.read _ _) => .step { type := .readIndex, context := token (s.readToken + 1) }

theorem handle_alike (s : Server) (i : Input) : Alike { s with node := (s.cause i).run s.node } (s.handle i) := by
  cases i with
  | tick => exact ⟨rfl,rfl,rfl,rfl⟩
  | recv m => exact ⟨rfl,rfl,rfl,rfl⟩
  | request req =>
    cases req with
    | propose cmd =>
      simp only [handle,handleRequest,cause,Cluster.Input.run]
      split <;> exact ⟨rfl,rfl,rfl,rfl⟩
    | read key resp =>
      simp only [handle,handleRequest,cause,Cluster.Input.run]
      split <;> exact ⟨rfl,rfl,rfl,rfl⟩

end Server

variable {S : Setup} {H H' : Hist} {n : Nat} {maxSegmentSize : Nat}

/-- The same core, machine and applied index. The machine is small enough to be saved. -/
structure Abreast (sv : Server) (p : Peer (serving S).app) : Prop where
  node : p.raft = sv.node
  applied : p.applied = sv.applied
  sm : p.sm.machine = sv.sm
  bounded : sv.sm.Bounded sv.applied

/-- A running node over the disk `d` of the cluster. -/
structure Runs (sv : Server) (d : Parallax.Storage) (p : Peer (serving S).app) : Prop extends Abreast sv p where
  storage : sv.node.raftLog.storage = sv.stor.mirror.toStorage
  stored : Stored sv.stor d p.buf

def Mirrors : Node → Host (serving S).app → Prop
  | .up sv, h => ∃ p, h.vol = some p ∧ Runs sv h.disk p
  | .down dir, h => h.vol = none ∧ Left dir h.disk

theorem Abreast.alike {sv sv' : Server} {p : Peer (serving S).app} (h : Abreast sv p) (ha : Server.Alike sv sv') :
    Abreast sv' p :=
  ⟨h.node.trans ha.node.symm,h.applied.trans ha.applied.symm,h.sm.trans ha.sm.symm,by
    rw [ha.sm,ha.applied]
    exact h.bounded⟩

theorem Abreast.applyEntry {sv : Server} {p : Peer (serving S).app} (h : Abreast sv p) {e : Entry}
    (he : e.index < 2 ^ 64) : Abreast (sv.applyEntry e) (p.applyEntry e) := by
  refine Abreast.alike ?_ (sv.applyEntry_alike e)
  unfold Peer.applyEntry
  rw [h.applied]
  split
  · exact h
  rename_i hlt
  have hb := (h.bounded.applyEntry e).mono (Nat.succ_le_of_lt (Nat.lt_of_not_le hlt))
  refine ⟨h.node,rfl,?_,hb⟩
  have hf := hb.fits he
  rw [← h.sm] at hf
  exact (Replica.applyEntry_machine hf).trans (by rw [h.sm])

theorem Abreast.foldl {es : List Entry} (hes : ∀ e ∈ es, e.index < 2 ^ 64) : ∀ {sv : Server} {p : Peer (serving S).app},
    Abreast sv p → Abreast (es.foldl Server.applyEntry sv) (es.foldl Peer.applyEntry p) := by
  induction es with
  | nil => exact id
  | cons e es ih =>
    intro sv p h
    exact ih (fun e' he' => hes e' (by simp [he'])) (h.applyEntry (hes e (by simp)))

/-- What step (3) does with a batch without a snapshot. -/
def Server.settle (s : Server) (rd : Ready) : Server :=
  rd.readStates.foldl releaseRead (rd.committedEntries.foldl applyEntry s)

theorem foldl_applyEntry_node (es : List Entry) : ∀ sv : Server,
    (es.foldl Server.applyEntry sv).node = sv.node ∧ (es.foldl Server.applyEntry sv).stor = sv.stor := by
  induction es with
  | nil => exact fun _ => ⟨rfl,rfl⟩
  | cons e es ih =>
    intro sv
    have h := sv.applyEntry_alike e
    obtain ⟨h₁,h₂⟩ := ih (sv.applyEntry e)
    rw [List.foldl_cons,h₁,h₂,h.node,h.stor]
    split <;> exact ⟨rfl,rfl⟩

theorem Abreast.finish {sv : Server} {p p' : Peer (serving S).app} (h : Abreast sv p) {rd : Ready}
    (hsn : rd.snapshot = none) (hsmall : ∀ e ∈ rd.committedEntries, e.index < 2 ^ 64) (stor : Disk.Storage)
    (hp : p.finish stor.mirror.toStorage rd = some p') :
    sv.finish stor rd = some { sv.settle rd with node := p'.raft, stor := stor } ∧
      Abreast { sv.settle rd with node := p'.raft, stor := stor } p' := by
  have hab : Abreast (sv.settle rd) (rd.committedEntries.foldl Peer.applyEntry p) :=
    (Abreast.foldl hsmall h).alike (Server.Alike.foldl Server.releaseRead_alike rd.readStates _)
  simp only [Peer.finish,hsn,Option.elim_none,Option.bind_some] at hp
  simp only [Server.finish,hsn,Option.elim_none,Option.bind_some]
  rw [show rd.readStates.foldl Server.releaseRead (rd.committedEntries.foldl Server.applyEntry sv) = sv.settle rd
    from rfl]
  generalize rd.committedEntries.foldl Peer.applyEntry p = q at hab hp
  generalize sv.settle rd = s at hab ⊢
  rw [hab.node] at hp
  split at hp
  · cases hp
  rename_i hf
  obtain rfl := Option.some.inj hp
  rw [if_neg hf]
  exact ⟨rfl,rfl,hab.applied,hab.sm,hab.bounded⟩

theorem Runs.round {sv : Server} {d : Parallax.Storage} {p : Peer (serving S).app} (h : Runs sv d p)
    (hu : Cluster.Undrained (serving S) H n d p) (hsn : sv.node.raftLog.unstable.snapshot = none)
    (hfits : ∀ rd, sv.node.ready = .ok rd → BatchFits rd) (maxSegmentSize : Nat) :
    ∃ rd r stor, sv.node.ready = .ok rd ∧ Server.persist maxSegmentSize sv.stor rd = .ok stor ∧
      sv.round maxSegmentSize = (rd.messages,.ok { sv.settle rd with node := r, stor := stor }) ∧ r.hasReady = false ∧
      (∃ d' p', (∀ hst : Host (serving S).app, hst.disk = d → hst.round p false = (⟨d',some p'⟩,some rd)) ∧
        Runs { sv.settle rd with node := r, stor := stor } d' p') ∧
      ∀ dir, Disk.Cut (stor.ops.drop sv.stor.ops.length) sv.stor.dir dir →
        ∃ j, Left dir (Cluster.replay d ((p.buf ++ Cluster.records rd).take j)) := by
  have hlog := hu.core.ok.log
  obtain ⟨rd,hrd,hof⟩ := hlog.exists_ready
  obtain ⟨st,hpst,hrep,_⟩ := hu.persist hrd
  have hready : sv.node.ready = .ok rd := h.node ▸ hrd
  have hnone : rd.snapshot = none := by rw [hof.snapshot,h.node,hsn]
  have hidx := hlog.repr.unstable_indexed
  rw [← hof.entries] at hidx
  obtain ⟨stor,hper,rfl,hstored,hcut⟩ := h.stored.persist hnone (hfits rd hready) hidx.contiguous hidx.pos
    (by rw [← h.storage,← h.node]; exact hpst) maxSegmentSize
  -- What is committed has been written, so its indices are 64-bit numbers.
  have hsmall : ∀ e ∈ rd.committedEntries, e.index < 2 ^ 64 := by
    intro e he
    have hoff : stor.mirror.toStorage.offset = 0 := by
      obtain ⟨_,hb,_⟩ := hstored
      exact hb.offset
    refine (hstored.fits e ?_).2.1
    rw [hrep.entries,hoff,List.drop_zero]
    rw [hof.committedEntries] at he
    exact List.mem_of_mem_take (List.mem_of_mem_drop he)
  obtain ⟨r,hr,hfin⟩ := hu.finish hrd stor.mirror.toStorage (if rd.mustSync then [] else p.buf ++ Cluster.records rd)
  have hab : Abreast sv { p with buf := if rd.mustSync then [] else p.buf ++ Cluster.records rd } :=
    ⟨h.node,h.applied,h.sm,h.bounded⟩
  obtain ⟨hsfin,hab'⟩ := hab.finish hnone hsmall stor hfin
  refine ⟨rd,r,stor,hready,hper,?_,hr ▸ hu.advance_hasReady hrd,
    ⟨if rd.mustSync then stor.mirror.toStorage else d,_,fun hst hd => ?_,hab',?_,hstored⟩,hcut⟩
  · unfold Server.round
    simp only [hready,hper,hsfin]
    rfl
  · unfold Host.round
    simp only [hrd,hpst,hd,Bool.or_false,hfin]
  have hrl := hlog.advance_raftLog stor.mirror.toStorage hrd
  rw [← hr] at hrl
  simp only [hrl]

/-- The loop has taken all the core had ready. -/
def Server.Emptied (s s' : Server) : Prop :=
  (s.node.hasReady = false ∧ s' = s) ∨
    ∃ rd r stor, s.node.ready = .ok rd ∧ s' = { s.settle rd with node := r, stor := stor }

theorem Runs.drainLoop {sv : Server} {d : Parallax.Storage} {p : Peer (serving S).app} (h : Runs sv d p)
    (hu : Cluster.Undrained (serving S) H n d p) (hsn : sv.node.raftLog.unstable.snapshot = none)
    (hfits : ∀ rd, sv.node.ready = .ok rd → BatchFits rd) (maxSegmentSize : Nat) :
    ∃ sv' hst rds, sv.drainLoop maxSegmentSize Cluster.State.fuel = (rds.flatMap Ready.messages,.ok sv') ∧
      Host.drain false Cluster.State.fuel (⟨d,some p⟩ : Host (serving S).app) = (hst,rds) ∧
      Mirrors (.up sv') hst ∧ sv.Emptied sv' ∧ ∀ m ∈ rds.flatMap Ready.messages, m ∈ sv.node.msgs := by
  unfold Cluster.State.fuel Server.drainLoop Host.drain
  simp only [h.node]
  by_cases hr : sv.node.hasReady = true
  · obtain ⟨rd,r,stor,hrd,_,hround,hready,⟨d',p',hhost,hruns⟩,_⟩ := h.round hu hsn hfits maxSegmentSize
    rw [if_pos hr,if_pos hr,hround,hhost _ rfl]
    unfold Server.drainLoop Host.drain
    simp only [hruns.node,hready,Bool.false_eq_true,if_false]
    refine ⟨_,_,_,by simp,rfl,⟨p',rfl,hruns⟩,.inr ⟨rd,r,stor,hrd,rfl⟩,fun m hm => ?_⟩
    rw [← h.node,← (hu.core.ok.log.readyOf (h.node ▸ hrd)).messages]
    simpa using hm
  · rw [if_neg hr,if_neg hr]
    exact ⟨_,_,_,rfl,rfl,⟨p,rfl,h⟩,.inl ⟨by simpa using hr,rfl⟩,fun m hm => by cases hm⟩

section input
variable {c : Cluster.State (serving S).app} {sv : Server} {p : Peer (serving S).app} {i : Input}
  (hI : Cluster.Inv (serving S) c H) (hn : n ∈ S.peers) (hv : (c.host n).vol = some p)
  (h : Runs sv (c.host n).disk p) (hi : c.Admits n (sv.cause i))
  (hno : ∀ m, (sv.cause i).message? = some m → m.type ≠ .installSnapshot)
  (hfits : ∀ rd, (sv.handle i).node.ready = .ok rd → BatchFits rd)
include hI hn hv h hi hno

/-- Between an input and its drain. -/
theorem Runs.handled : ∃ H', Cluster.Undrained (serving S) H' n (c.host n).disk
      { p with raft := (sv.cause i).run p.raft } ∧
    Runs (S := S) (sv.handle i) (c.host n).disk { p with raft := (sv.cause i).run p.raft } ∧
    (sv.handle i).node.raftLog.unstable.snapshot = none ∧ ((sv.cause i).run p.raft).failed = false := by
  obtain ⟨H',hf,ha,_,heff,_⟩ := hI.input hn hv hi
  have hpk := (hI.hosts n hn).peer p hv
  have hal := sv.handle_alike i
  have hnode : (sv.handle i).node = (sv.cause i).run p.raft := hal.node.trans (by rw [h.node])
  refine ⟨H',hpk.undrained hf ha heff,⟨⟨hnode.symm,?_,?_,?_⟩,?_,?_⟩,?_,?_⟩
  · exact h.applied.trans hal.applied.symm
  · exact h.sm.trans hal.sm.symm
  · rw [hal.sm,hal.applied]
    exact h.bounded
  · rw [hnode,heff.kept.storage,hal.stor,h.node]
    exact h.storage
  · rw [hal.stor]
    exact h.stored
  · rw [hnode]
    exact heff.no_snapshot hpk.clean.1 hno
  unfold Raft.failed
  rw [ha.ok.panicked,ha.ok.log.panicked]
  rfl

include hfits

/-- An input and its drain. -/
theorem Runs.input (maxSegmentSize : Nat) : (sv.handle i).node.failed = false ∧
    ∃ ms sv', (sv.handle i).drain maxSegmentSize = (ms,.ok sv') ∧ (sv.handle i).checkLeadership.Emptied sv' ∧
      (∀ m ∈ ms, m ∈ ((sv.cause i).run p.raft).msgs) ∧
      (c.next (serving S) (.input n (sv.cause i) false)).net = ms ++ c.net ∧
      ∃ hst, (c.next (serving S) (.input n (sv.cause i) false)).host = Function.update c.host n hst ∧
        Mirrors (.up sv') hst := by
  obtain ⟨H',hu,hr,hsn,hfail⟩ := h.handled hI hn hv hi hno
  have hal := (sv.handle i).checkLeadership_alike
  have hr' : Runs (S := S) (sv.handle i).checkLeadership (c.host n).disk
      { p with raft := (sv.cause i).run p.raft } :=
    ⟨hr.toAbreast.alike hal,by rw [hal.node,hal.stor]; exact hr.storage,by rw [hal.stor]; exact hr.stored⟩
  obtain ⟨sv',hst,rds,h₁,h₂,h₃,h₄,h₅⟩ := hr'.drainLoop hu (by rw [hal.node]; exact hsn)
    (fun rd hrd => hfits rd (hal.node ▸ hrd)) maxSegmentSize
  rw [hal.node,← hr.node] at h₅
  refine ⟨by rw [← hr.node]; exact hfail,_,sv',h₁,h₄,h₅,?_,hst,?_,h₃⟩ <;>
    simp only [Cluster.State.next,hv,hfail,Bool.false_eq_true,if_false,h₂]
  rfl

theorem Runs.torn {maxSegmentSize : Nat} {rd : Ready} (hrd : (sv.handle i).node.ready = .ok rd) {stor : Disk.Storage}
    (hp : Server.persist maxSegmentSize sv.stor rd = .ok stor) {dir : Disk.Dir}
    (hc : Disk.Cut (stor.ops.drop sv.stor.ops.length) sv.stor.dir dir) :
    ∃ j hst, (c.next (serving S) (.torn n (sv.cause i) j)).host = Function.update c.host n hst ∧
      (c.next (serving S) (.torn n (sv.cause i) j)).net = c.net ∧ Mirrors (.down dir) hst := by
  obtain ⟨H',hu,hr,hsn,hfail⟩ := h.handled hI hn hv hi hno
  obtain ⟨rd',r,stor',hrd',hp',_,_,_,hcut⟩ := hr.round hu hsn hfits maxSegmentSize
  rw [hrd] at hrd'
  obtain rfl := Except.ok.inj hrd'
  have hstor := (sv.handle_alike i).stor
  rw [hstor,hp] at hp'
  obtain rfl := Except.ok.inj hp'
  rw [hstor] at hcut
  obtain ⟨j,hj⟩ := hcut dir hc
  have hready : ((sv.cause i).run p.raft).ready = .ok rd := by rw [← hrd,← hr.node]
  have hnone : rd.snapshot = none := by
    have hs := (hu.core.ok.log.readyOf hready).snapshot
    rw [hs,← hsn,← hr.node]
  refine ⟨j,⟨_,none⟩,?_,?_,rfl,hj⟩ <;> simp only [Cluster.State.next,hv,hready,hnone] <;> rfl

end input

/-- Opening the directory and starting the core over it. -/
theorem Left.start {dir : Disk.Dir} {d : Parallax.Storage} (h : Left dir d) {cfg : Config} {rand : Nat → Nat}
    {p : Peer (serving S).app} (hp : Peer.start cfg d rand = some p) (maxSegmentSize : Nat) :
    ∃ sv, Server.new maxSegmentSize cfg dir rand = some sv ∧ Runs sv d p := by
  obtain ⟨hst,hmir,_⟩ := h.opened maxSegmentSize
  have hsn : d.snapshot = {} := by
    obtain ⟨_,_,hr⟩ := hst
    exact hr.snapshot
  simp only [Peer.start,hsn] at hp
  split at hp
  · cases hp
  rename_i hf
  obtain rfl := Option.some.inj hp
  refine ⟨{ node := Raft.newRaft cfg d rand, stor := Disk.openDir maxSegmentSize dir },?_,
    ⟨rfl,rfl,rfl,StateMachine.Bounded.init⟩,?_,hst⟩
  · unfold Server.new
    simp only [hmir,Disk.Storage.snapshot]
    rw [if_neg hf,hsn,if_neg (Nat.lt_irrefl 0)]
  · rw [Cluster.newRaft_raftLog,Cluster.recoverLog_storage,hmir]

def Node.server? : Node → Option Server
  | .up sv => some sv
  | .down _ => none

theorem Node.server?_eq_some {x : Node} {sv : Server} : x.server? = some sv ↔ x = .up sv := by
  cases x <;> simp [server?]

/-- The input that a node gets. -/
def Event.input? : Event → Option (Nat × Input)
  | .input n i | .torn n i _ => some (n,i)
  | .crash _ | .start _ _ | .stall _ _ => none

/-- The records a node is about to write are within the bounds of the log format. -/
def Site.Fits (s : Site) : Event → Prop
  | .input n i | .torn n i _ => ∀ sv ∈ (s.node n).server?, ∀ rd ∈ (sv.handle i).node.ready.toOption, BatchFits rd
  | .crash _ | .start _ _ | .stall _ _ => True

instance (s : Site) : (e : Event) → Decidable (s.Fits e)
  | .input _ _ | .torn _ _ _ => inferInstanceAs (Decidable (∀ sv ∈ _, _))
  | .crash _ | .start _ _ | .stall _ _ => isTrue trivial

/-- All nodes start down with empty directories. -/
inductive Site.Reachable (maxSegmentSize : Nat) (S : Setup) : Site → Prop
  | init : Reachable maxSegmentSize S {}
  | step {s : Site} {e : Event} : Reachable maxSegmentSize S s → s.Enabled maxSegmentSize S e → s.Fits e →
      Reachable maxSegmentSize S (s.next maxSegmentSize S e)

inductive Site.Step (maxSegmentSize : Nat) (S : Setup) : Site → Site → Prop
  | mk (s : Site) (e : Event) (he : s.Enabled maxSegmentSize S e) (hf : s.Fits e) :
    Step maxSegmentSize S s (s.next maxSegmentSize S e)

/-- A run of the site. -/
abbrev Site.Run (maxSegmentSize : Nat) (S : Setup) : Site → Site → Prop :=
  Relation.ReflTransGen (Site.Step maxSegmentSize S)

theorem Site.Reachable.run {s s' : Site} (h : s.Reachable maxSegmentSize S) (hr : Site.Run maxSegmentSize S s s') :
    s'.Reachable maxSegmentSize S := by
  induction hr with
  | refl => exact h
  | tail _ hs ih =>
    cases hs with
    | mk e he hf => exact ih.step he hf

/-- The cluster behind a site. No snapshot was ever sent. -/
structure Backs (S : Setup) (c : Cluster.State (serving S).app) (s : Site) : Prop where
  net : c.net = s.net
  nodes : ∀ n ∈ S.peers, Mirrors (s.node n) (c.host n)
  plain : ∀ m ∈ s.net, m.type ≠ .installSnapshot

/-- `c'` is what the event makes of the cluster `c` behind `s`. -/
def Shadows (S : Setup) (s : Site) (c c' : Cluster.State (serving S).app) : Event → Prop
  | .input n i =>
    match s.node n with
    | .down _ => c' = c
    | .up sv => c' = c.next (serving S) (.input n (sv.cause i) false)
  | .torn n i _ => ∃ sv j, s.node n = .up sv ∧ c' = c.next (serving S) (.torn n (sv.cause i) j)
  | .crash n =>
    match s.node n with
    | .down _ => c' = c
    | .up _ => c' = c.next (serving S) (.crash n)
  | .start n rand =>
    match s.node n with
    | .up _ => c' = c
    | .down _ => c' = c.next (serving S) (.restart n rand)
  | .stall _ _ => c' = c

theorem Backs.admits {c : Cluster.State (serving S).app} {s : Site} (h : Backs S c s) {i : Input}
    (hi : s.Admits n i) (sv : Server) : c.Admits n (sv.cause i) := by
  cases i with
  | tick => trivial
  | recv m => exact .inr (.inr (h.net ▸ hi))
  | request req =>
    cases req with
    | propose cmd => exact .inl rfl
    | read key resp => exact .inr (.inl rfl)

/-- What arrives is no snapshot. -/
theorem Backs.arrives {c : Cluster.State (serving S).app} {s : Site} (h : Backs S c s) {i : Input}
    (hi : s.Admits n i) (sv : Server) (m : Message) (hm : (sv.cause i).message? = some m) :
    m.type ≠ .installSnapshot := by
  cases i with
  | tick => cases hm
  | recv m' =>
    obtain rfl := Option.some.inj hm
    exact h.plain m' hi.1
  | request req => cases req <;> (obtain rfl := Option.some.inj hm; simp)

/-- The event hands no snapshot to a node. -/
def Snapless (e : Cluster.Event) : Prop :=
  ∀ n i m, e.input? = some (n,i) → i.message? = some m → m.type ≠ .installSnapshot

/-- A node gets an input of the cluster's event only as the cause of its own input. -/
def Causes (s : Site) (e : Event) (ce : Cluster.Event) : Prop :=
  ∀ n j, ce.input? = some (n,j) → ∃ sv i, s.node n = .up sv ∧ s.Admits n i ∧ e.input? = some (n,i) ∧ j = sv.cause i

theorem Causes.snapless {c : Cluster.State (serving S).app} {s : Site} {e : Event} {ce : Cluster.Event}
    (h : Causes s e ce) (hb : Backs S c s) : Snapless ce := by
  intro n j m hin hm
  obtain ⟨sv,i,_,hi,_,rfl⟩ := h n j hin
  exact hb.arrives hi sv m hm

/-- The cluster takes at most one step. -/
theorem Shadows.step {s : Site} {c c' : Cluster.State (serving S).app} {e : Event} (hs : Shadows S s c c' e)
    (h : Backs S c s) (he : s.Enabled maxSegmentSize S e) :
    c' = c ∨ ∃ ce, c.Enabled (serving S) ce ∧ Causes s e ce ∧ c' = c.next (serving S) ce := by
  have hcause : ∀ {n i ce} {sv : Server}, s.node n = .up sv → s.Admits n i → e.input? = some (n,i) →
      ce.input? = some (n,sv.cause i) → Causes s e ce := by
    intro n i ce sv hx hi hin hce q j hq
    rw [hce] at hq
    obtain ⟨rfl,rfl⟩ := Prod.mk.inj (Option.some.inj hq)
    exact ⟨sv,i,hx,hi,hin,rfl⟩
  cases e with
  | input n i =>
    simp only [Shadows] at hs
    split at hs
    · exact .inl hs
    · rename_i sv hx
      exact .inr ⟨.input n (sv.cause i) false,⟨he.1,h.admits he.2 sv⟩,hcause hx he.2 rfl rfl,hs⟩
  | torn n i d =>
    obtain ⟨sv,j,hx,hs⟩ := hs
    exact .inr ⟨.torn n (sv.cause i) j,⟨he.1,h.admits he.2.1 sv⟩,hcause hx he.2.1 rfl rfl,hs⟩
  | crash n =>
    simp only [Shadows] at hs
    split at hs
    · exact .inl hs
    · exact .inr ⟨.crash n,he,fun _ _ hin => (nomatch hin),hs⟩
  | start n rand =>
    simp only [Shadows] at hs
    split at hs
    · exact .inl hs
    · exact .inr ⟨.restart n rand,he,fun _ _ hin => (nomatch hin),hs⟩
  | stall n d => exact .inl hs

theorem Runs.plain {c : Cluster.State (serving S).app} {sv : Server} {p : Peer (serving S).app} {i : Input}
    (hI : Cluster.Inv (serving S) c H) (hn : n ∈ S.peers) (hv : (c.host n).vol = some p)
    (h : Runs sv (c.host n).disk p) (hi : c.Admits n (sv.cause i))
    (hno : ∀ m, (sv.cause i).message? = some m → m.type ≠ .installSnapshot) :
    ∀ m ∈ ((sv.cause i).run p.raft).msgs, m.type ≠ .installSnapshot := by
  intro m hm ht
  obtain ⟨_,_,hr,hsn,_⟩ := h.handled hI hn hv hi hno
  have hbase : ((sv.cause i).run p.raft).raftLog.base.index = 0 := by
    obtain ⟨_,hb,_⟩ := hr.stored
    have hnode : (sv.cause i).run p.raft = (sv.handle i).node := hr.node
    rw [RaftLog.base,hnode,hsn]
    rw [hr.storage,hb.snapshot]
  obtain ⟨_,next,hpos,hm⟩ := hI.sent hn hv hi hm (.inr ht)
  rw [hbase,if_neg (by omega)] at hm
  cases ht.symm.trans hm.type

theorem Backs.update {c c' : Cluster.State (serving S).app} {s : Site} (h : Backs S c s) {x : Node}
    {hst : Host (serving S).app} (hm : Mirrors x hst) (hh : c'.host = Function.update c.host n hst)
    (ms : List Message) (hnet : c'.net = ms ++ c.net) (hms : ∀ m ∈ ms, m.type ≠ .installSnapshot)
    (replies : List Reply) : Backs S c' { s.setNode n x with net := ms ++ s.net, replies := replies } where
  net := by rw [hnet,h.net]
  nodes q hq := by
    rw [hh]
    by_cases hqn : q = n
    · subst hqn
      simpa [Site.setNode] using hm
    · simpa [Site.setNode,hqn] using h.nodes q hq
  plain m hm := (List.mem_append.mp hm).elim (hms m) (h.plain m)

/-- Every event of the site is an event of the cluster behind it. -/
theorem Backs.next {c : Cluster.State (serving S).app} {s : Site} {e : Event} (h : Backs S c s)
    (hI : Cluster.Inv (serving S) c H) (he : s.Enabled maxSegmentSize S e) (hf : s.Fits e) :
    ∃ c', Shadows S s c c' e ∧ Backs S c' (s.next maxSegmentSize S e) := by
  cases e with
  | input n i =>
    have hnode := h.nodes n he.1
    simp only [Shadows,Site.next]
    cases hx : s.node n with
    | down d => exact ⟨c,rfl,h⟩
    | up sv =>
      rw [hx] at hnode
      obtain ⟨p,hv,hr⟩ := hnode
      have hadm := h.admits he.2 sv
      have hfits : ∀ rd, (sv.handle i).node.ready = .ok rd → BatchFits rd := fun rd hrd =>
        hf sv (by rw [hx]; rfl) rd (by rw [hrd]; rfl)
      obtain ⟨hfail,ms,sv',hdrain,_,hms,hnet,hst,hh,hm⟩ := hr.input hI he.1 hv hadm (h.arrives he.2 sv) hfits
        maxSegmentSize
      simp only [hfail,Bool.false_eq_true,if_false,hdrain]
      obtain ⟨p',hv',hr'⟩ := hm
      have hquiet : Mirrors (S := S) (.up { sv' with replies := [] }) hst :=
        ⟨p',hv',⟨hr'.node,hr'.applied,hr'.sm,hr'.bounded⟩,hr'.storage,hr'.stored⟩
      exact ⟨_,rfl,h.update hquiet hh ms hnet (fun m hm => hr.plain hI he.1 hv hadm (h.arrives he.2 sv) m (hms m hm)) _⟩
  | torn n i d =>
    obtain ⟨hn,hi,sv,rd,stor,hx,hrd,hp,hc⟩ := he
    have hnode := h.nodes n hn
    rw [hx] at hnode
    obtain ⟨p,hv,hr⟩ := hnode
    have hfits : ∀ rd, (sv.handle i).node.ready = .ok rd → BatchFits rd := fun rd hrd =>
      hf sv (by rw [hx]; rfl) rd (by rw [hrd]; rfl)
    obtain ⟨j,hst,hh,hnet,hm⟩ := hr.torn hI hn hv (h.admits hi sv) (h.arrives hi sv) hfits hrd hp hc
    exact ⟨_,⟨sv,j,hx,rfl⟩,h.update hm hh [] hnet (by simp) _⟩
  | crash n =>
    have hnode := h.nodes n he
    simp only [Shadows,Site.next]
    cases hx : s.node n with
    | down d => exact ⟨c,rfl,h⟩
    | up sv =>
      rw [hx] at hnode
      obtain ⟨p,hv,hr⟩ := hnode
      have hm : Mirrors (S := S) (.down sv.stor.dir) { c.host n with vol := none } := ⟨rfl,hr.stored.left⟩
      refine ⟨c.next (serving S) (.crash n),rfl,?_⟩
      refine h.update hm ?_ [] ?_ (by simp) s.replies <;> rfl
  | start n rand =>
    have hnode := h.nodes n he
    simp only [Shadows,Site.next]
    cases hx : s.node n with
    | up sv => exact ⟨c,rfl,h⟩
    | down d =>
      rw [hx] at hnode
      obtain ⟨hv,hl⟩ := hnode
      obtain ⟨p,hp,_⟩ := (hI.hosts n he).disk.start he hI.good rand
      obtain ⟨sv,hnew,hr⟩ := hl.start hp maxSegmentSize
      change Server.new maxSegmentSize (S.cfg n) d rand = some sv at hnew
      have hm : Mirrors (S := S) (.up sv) { c.host n with vol := some p } := ⟨p,rfl,hr⟩
      refine ⟨c.next (serving S) (.restart n rand),rfl,?_⟩
      simp only [hnew]
      refine h.update hm ?_ [] ?_ (by simp) s.replies <;> simp only [Cluster.State.next,hv,hp] <;> rfl
  | stall n d =>
    obtain ⟨hn,d₀,hx,hc⟩ := he
    have hnode := h.nodes n hn
    rw [hx] at hnode
    have hm : Mirrors (S := S) (.down d) (c.host n) := ⟨hnode.1,(hnode.2.opened _).2.2 d hc⟩
    exact ⟨c,rfl,h.update hm (by simp) [] rfl (by simp) _⟩

/-- Behind every site there is a cluster. -/
theorem Site.Reachable.backed {s : Site} (h : s.Reachable maxSegmentSize S) :
    ∃ c, Cluster.Reachable (serving S) c ∧ Backs S c s := by
  induction h with
  | init => exact ⟨{},.init,rfl,fun n _ => ⟨rfl,.inl ⟨rfl,rfl⟩⟩,fun m hm => by cases hm⟩
  | step _ he hf ih =>
    obtain ⟨c,hc,hb⟩ := ih
    obtain ⟨H,hI⟩ := hc.inv
    obtain ⟨c',hs,hb'⟩ := hb.next hI he hf
    rcases hs.step hb he with rfl | ⟨ce,hce,_,rfl⟩
    · exact ⟨c',hc,hb'⟩
    · exact ⟨_,hc.step (.mk c ce hce),hb'⟩

end Drive
end Parallax
