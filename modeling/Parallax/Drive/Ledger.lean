import Parallax.Cluster.Origin
import Parallax.Drive.Play
import Parallax.Drive.Reading

/-! The log behind a site's answers. Whatever requests arrive, one committed log explains all results given, and the
machine of each running node is the fold of part of it. -/
namespace Parallax.Drive
open Kv StateMachine
open Cluster (Setup Hist)
variable {S : Setup} {H : Hist} {maxSegmentSize : Nat} {s : Site} {c : Cluster.State (serving S).app} {L : List Entry}
  {need need' : ClientKey → Nat} {gets gets' : ClientKey → Bytes → Prop}

/-- No node runs out of read tokens. -/
def Site.Tokens (s : Site) (e : Event) : Prop :=
  ∀ x ∈ e.input?, ∀ sv ∈ (s.node x.1).server?, sv.readToken ≤ sv.readToken + x.2.count

instance (s : Site) (e : Event) : Decidable (s.Tokens e) := inferInstanceAs (Decidable (∀ x ∈ _, ∀ sv ∈ _, _))

/-- A cluster behind the site with the history `H`, and a committed log `L` that all results were given by. -/
structure Ledger (S : Setup) (s : Site) (c : Cluster.State (serving S).app) (H : Hist) (L : List Entry)
    (need : ClientKey → Nat) (gets : ClientKey → Bytes → Prop) : Prop where
  inv : Cluster.Inv (serving S) c H
  backs : Backs S c s
  sourced : Cluster.Sourced (serving S) c
  within : Cluster.AskedWithin c
  committed : ∃ t, H.CommittedBy t L
  reading : ∀ n ∈ S.peers, ∀ sv, s.node n = .up sv → Reading S c H need gets n sv
  replies : ∀ r ∈ s.replies, Given L need gets r

/-- What the node applied is part of `C`, in its log and in its machine. -/
structure Server.Along (C : List Entry) (sv : Server) : Prop where
  le : sv.applied ≤ C.length
  entries : ∀ i, sv.node.raftLog.base.index < i → i ≤ sv.applied → sv.node.raftLog.entry? i = C[i - 1]?
  machine : sv.sm = fold (C.take sv.applied)

theorem Server.Along.take_eq {C : List Entry} {sv : Server} (h : sv.Along C) (hb : sv.node.raftLog.base.index = 0)
    {k : Nat} (hk : k ≤ sv.applied) : C.take k = sv.node.raftLog.view.take k := by
  refine List.ext_getElem? fun i => ?_
  rw [List.getElem?_take,List.getElem?_take]
  split
  · have he := h.entries (i + 1) (by omega) (by omega)
    rw [RaftLog.entry?,if_pos (by omega),hb] at he
    exact he.symm
  · rfl

namespace Ledger

theorem init (S : Setup) (need : ClientKey → Nat) (gets : ClientKey → Bytes → Prop) :
    Ledger S {} {} Consensus.History.empty [] need gets where
  inv := Cluster.Inv.init _
  backs := ⟨rfl,fun n _ => ⟨rfl,.inl ⟨rfl,rfl⟩⟩,fun m hm => by cases hm⟩
  sourced := (Cluster.Reachable.init (S := serving S)).sourced
  within n t ctx ha := by
    obtain ⟨_,_,hr,_⟩ := ha
    cases hr
  committed := ⟨0,.nil 0⟩
  reading n _ sv hx := by cases hx
  replies _ hr := by cases hr

/-- More reads may be asked for. -/
theorem mono (h : Ledger S s c H L need gets) (hg : ∀ op key, gets op key → gets' op key)
    (hn : ∀ op key, gets op key → need' op = need op) : Ledger S s c H L need' gets' :=
  { h with
    reading := fun n hm sv hx => (h.reading n hm sv hx).mono hg hn
    replies := fun r hr => (h.replies r hr).mono List.prefix_rfl hg hn }

theorem move {H' : Hist} {c' : Cluster.State (serving S).app} {s' : Site} {L' : List Entry} {ce : Cluster.Event}
    (h : Ledger S s c H L need gets) (hch : Cluster.Change (serving S) H H' c ce c')
    (hI' : Cluster.Inv (serving S) c' H') (hb' : Backs S c' s') {t : Nat} (hL' : H'.CommittedBy t L') (hpre : L <+: L')
    (hread : ∀ n ∈ S.peers, ∀ sv, s'.node n = .up sv → Reading S c' H' need gets n sv)
    (hreps : ∀ r ∈ s'.replies, r ∈ s.replies ∨ Given L' need gets r) : Ledger S s' c' H' L' need gets := by
  refine ⟨hI',hb',h.sourced.next h.inv hch hI',h.within.next h.inv hch,⟨t,hL'⟩,hread,fun r hr => ?_⟩
  rcases hreps r hr with hr | hg
  · exact (h.replies r hr).mono hpre (fun _ _ hw => hw) fun _ _ _ => rfl
  · exact hg

theorem next (h : Ledger S s c H L need gets) {e : Event} (he : s.Enabled maxSegmentSize S e) (hf : s.Fits e)
    (ht : s.Tokens e)
    (hreq : ∀ n key op, e.input? = some (n,.request (.read key op)) → gets op key ∧ need op ≤ L.length) :
    ∃ c' H' ce L', Cluster.Change (serving S) H H' c ce c' ∧ Causes s e ce ∧ L <+: L' ∧
      (∀ x ∈ L', x ∈ L ∨ ∃ n ∈ S.peers, ∃ sv, (s.next maxSegmentSize S e).node n = .up sv ∧ x ∈ H'.log n) ∧
      Ledger S (s.next maxSegmentSize S e) c' H' L' need gets := by
  obtain ⟨t,hL⟩ := h.committed
  by_cases hup : ∃ n i sv, e = .input n i ∧ s.node n = .up sv
  · obtain ⟨n,i,sv,rfl,hx⟩ := hup
    obtain ⟨ms,sv',c',H',t',ys,hnext,hch,hI',hb',hread,hys,hlog,hgiven⟩ := (h.reading n he.1 sv hx).input h.backs h.inv
      h.sourced he hf hx (ht _ rfl sv (by rw [hx]; rfl)) hL fun key op heq => hreq n key op (by rw [heq]; rfl)
    have hca : Causes s (.input n i) (.input n (sv.cause i) false) := by
      intro q j hin
      obtain ⟨rfl,rfl⟩ := Prod.mk.inj (Option.some.inj hin)
      exact ⟨sv,i,hx,he.2,rfl,rfl⟩
    have hothers : ∀ q ∈ S.peers, ∀ sv₁, (s.next maxSegmentSize S (.input n i)).node q = .up sv₁ →
        Reading S c' H' need gets q sv₁ := by
      intro q hq sv₁ hx₁
      rw [hnext] at hx₁
      rcases Site.setNode_up hx₁ with ⟨rfl,heq⟩ | ⟨hqn,hx₁⟩
      · obtain rfl := Node.up.inj heq
        exact hread
      · exact (h.reading q hq sv₁ hx₁).other h.inv hch hI' fun j hin =>
          hqn (Prod.mk.inj (Option.some.inj hin)).1.symm
    have hnew : ∀ {xs : List Entry}, ys <+: xs → ∀ r ∈ (s.next maxSegmentSize S (.input n i)).replies,
        r ∈ s.replies ∨ Given xs need gets r := by
      intro xs hxs r hr
      rw [hnext] at hr
      exact (List.mem_append.mp hr).symm.imp_right fun hr => (hgiven r hr).mono hxs (fun _ _ hw => hw) fun _ _ _ => rfl
    have hself : (s.next maxSegmentSize S (.input n i)).node n = .up { sv' with replies := [] } := by
      rw [hnext]
      simp [Site.setNode]
    rcases (hL.ext hch.ext).comparable hI'.good.inv hys with hle | hle
    · exact ⟨c',H',_,ys,hch,hca,hle,fun x hmem => .inr ⟨n,he.1,_,hself,hlog.subset hmem⟩,
        h.move hch hI' hb' hys hle hothers (hnew List.prefix_rfl)⟩
    · exact ⟨c',H',_,L,hch,hca,List.prefix_rfl,fun _ => .inl,
        h.move hch hI' hb' (hL.ext hch.ext) List.prefix_rfl hothers (hnew hle)⟩
  obtain ⟨c',H',ce,hch,hca,hI',hb',hreps,hread⟩ := Reading.quiet h.reading h.backs h.inv h.sourced h.within he hf
    fun n i sv heq hx => hup ⟨n,i,sv,heq,hx⟩
  exact ⟨c',H',ce,L,hch,hca,List.prefix_rfl,fun _ => .inl,
    h.move hch hI' hb' (hL.ext hch.ext) List.prefix_rfl hread fun r hr => .inl (hreps ▸ hr)⟩

theorem exists_log (h : Ledger S s c H L need gets) : ∃ C : List Entry,
    (∀ n ∈ S.peers, ∀ sv, s.node n = .up sv → sv.Along C) ∧ ∀ r ∈ s.replies, Given C need gets r := by
  have hnode : ∀ {C : List Entry}, (∀ n ∈ S.peers, ∀ p, (c.host n).vol = some p → Follows C p) →
      ∀ n ∈ S.peers, ∀ sv, s.node n = .up sv → sv.Along C := by
    intro C hC n hn sv hx
    obtain ⟨p,hv,hr⟩ : Mirrors (.up sv) (c.host n) := hx ▸ h.backs.nodes n hn
    have hf := hC n hn p hv
    have hmachine := hf.machine (hr.applied_lt ((h.inv.hosts n hn).peer p hv))
    have hle := hf.applied_le
    rw [hr.sm,hr.applied] at hmachine
    rw [hr.applied] at hle
    refine ⟨hle.trans hf.committed_le,fun i hb hi => ?_,hmachine⟩
    rw [← hr.node] at hb ⊢
    exact hf.entries i hb (hi.trans hle)
  obtain ⟨t,hL⟩ := h.committed
  obtain ⟨t',C,hcom,hC⟩ := exists_follows h.inv
  rcases hL.comparable h.inv.good.inv hcom with hle | hle
  · exact ⟨C,hnode hC,fun r hr => (h.replies r hr).mono hle (fun _ _ hg => hg) fun _ _ _ => rfl⟩
  · exact ⟨L,hnode fun n hn p hv => (hC n hn p hv).mono hle,h.replies⟩

end Ledger

/-- Sites that any requests were put to. -/
inductive Site.Attended (maxSegmentSize : Nat) (S : Setup) : Site → Prop
  | init : Attended maxSegmentSize S {}
  | step {s : Site} {e : Event} : Attended maxSegmentSize S s → s.Enabled maxSegmentSize S e → s.Fits e → s.Tokens e →
      Attended maxSegmentSize S (s.next maxSegmentSize S e)

theorem Site.Attended.ledger (h : s.Attended maxSegmentSize S) :
    ∃ c H L, Ledger S s c H L (fun _ => 0) fun _ _ => True := by
  induction h with
  | init => exact ⟨_,_,_,.init S _ _⟩
  | step _ he hf ht ih =>
    obtain ⟨c,H,L,h⟩ := ih
    obtain ⟨c',H',_,L',_,_,_,_,h'⟩ := h.next he hf ht fun _ _ _ _ => ⟨trivial,Nat.zero_le _⟩
    exact ⟨c',H',L',h'⟩

def Move.isRead : Move → Bool
  | .request _ (.read _ _) => true
  | .start _ _ | .tick _ | .recv _ _ _ _ | .request _ (.propose _) | .crash _ => false

theorem Move.tokens {m : Move} (hm : m.isRead = false) {e : Event} (he : m.event s = some e) : s.Tokens e := by
  have hzero : ∀ {n : Nat} {i : Input}, i.count = 0 → s.Tokens (.input n i) := by
    intro n i hi x hx sv _
    obtain rfl := Option.some.inj hx
    simp [hi]
  cases m with
  | start n rand | crash n =>
    obtain rfl := Option.some.inj he
    exact fun x hx => by cases hx
  | tick n =>
    obtain rfl := Option.some.inj he
    exact hzero rfl
  | recv t src dst k =>
    obtain ⟨msg,_,rfl⟩ := Option.map_eq_some_iff.mp he
    exact hzero rfl
  | request n req =>
    obtain rfl := Option.some.inj he
    cases req with
    | propose cmd => exact hzero rfl
    | read key op => cases hm

theorem Site.Attended.play {ms : List Move} (hms : ∀ m ∈ ms, m.isRead = false) : ∀ {s s' : Site},
    s.Attended maxSegmentSize S → s.play maxSegmentSize S ms = some s' → s'.Attended maxSegmentSize S := by
  induction ms with
  | nil =>
    intro s s' h hp
    obtain rfl := Option.some.inj hp
    exact h
  | cons m ms ih =>
    intro s s' h hp
    obtain ⟨e,he,hp⟩ := Option.bind_eq_some_iff.mp hp
    split at hp
    · rename_i hm
      have hread := hms m List.mem_cons_self
      exact ih (fun m' hm' => hms m' (List.mem_cons_of_mem _ hm'))
        (h.step (Move.enabled hm.1 he) hm.2 (Move.tokens hread he)) hp
    · cases hp

end Parallax.Drive
