import Parallax.Cluster.Acks
import Parallax.Cluster.Replication

/-! Where entries come from: in a run without snapshots, what a log or an append holds is a no-op of a new leader or
was proposed. -/
namespace Parallax.Cluster
open Consensus Consensus.History
variable {S : Setup} {H H' : Hist} {s s' : State S.app} {n : Nat} {P : EntryType → Bytes → Prop}

/-- Every entry in a log or on the network is one that `P` allows. -/
structure Stems (P : EntryType → Bytes → Prop) (s : State S.app) (H : Hist) : Prop where
  log : ∀ n ∈ S.peers, ∀ e ∈ H.log n, P e.type e.data
  net : ∀ m ∈ s.net, m.type = .append → ∀ e ∈ m.entries, P e.type e.data

theorem Stems.mono {P' : EntryType → Bytes → Prop} (h : Stems P s H) (hP : ∀ t b, P t b → P' t b) : Stems P' s H :=
  ⟨fun n hn e he => hP _ _ (h.log n hn e he),fun m hm ht e he => hP _ _ (h.net m hm ht e he)⟩

theorem stampEntries_payload {t li : Nat} {es : List Entry} {e : Entry} (h : e ∈ Raft.stampEntries t li es) :
    ∃ e₀ ∈ es, e.type = e₀.type ∧ e.data = e₀.data := by
  induction es generalizing li with
  | nil => cases h
  | cons e₀ es ih =>
    rcases List.mem_cons.mp h with rfl | h
    · exact ⟨e₀,by simp,rfl,rfl⟩
    · obtain ⟨e₁,he₁,h⟩ := ih h
      exact ⟨e₁,by simp [he₁],h⟩

/-- What an event proposes is allowed. -/
def Proposes (P : EntryType → Bytes → Prop) (e : Event) : Prop :=
  ∀ n i m, e.input? = some (n,i) → i.message? = some m → m.type = .propose → ∀ x ∈ m.entries, P .normal x.data

theorem Stems.written (h : Stems P s H) (hI : Inv S s H) (hn : n ∈ S.peers) {p : Peer S.app}
    (hp : (s.host n).vol = some p) {i : Input} (hi : s.Admits n i)
    (hno : ∀ m, i.message? = some m → m.type ≠ .installSnapshot) (hnoop : P .noop [])
    (hprop : ∀ m, i.message? = some m → m.type = .propose → ∀ x ∈ m.entries, P .normal x.data) :
    ∀ e ∈ (i.run p.raft).raftLog.unstable.entries, P e.type e.data := by
  obtain ⟨_,_,_,_,heff,_⟩ := hI.input hn hp hi
  have hpk := (hI.hosts n hn).peer p hp
  have hmsg : ∀ m, i.message? = some m → m.type = .append → m ∈ s.net := fun m hm hty =>
    (hi.mem hm (by simp [hty]) (by simp [hty])).1
  intro e he
  cases hpk.writes heff (fun m hm hty => hI.net m (hmsg m hm hty)) hno with
  | none hu =>
    rw [hu,hpk.clean.2] at he
    cases he
  | lead es hby hu =>
    rw [hu] at he
    obtain ⟨e₀,he₀,hty,hdata⟩ := stampEntries_payload he
    rw [hty,hdata]
    cases hby with
    | led _ _ _ hes =>
      obtain ⟨m,hm,hmt,rfl⟩ := hes
      obtain ⟨x,hx,rfl⟩ := List.mem_map.mp he₀
      exact hprop m hm hmt x hx
    | stood _ hes | campaigned hes =>
      rw [hes,List.mem_singleton] at he₀
      rw [he₀]
      exact hnoop
  | take m hm hty _ _ j _ _ _ _ hu =>
    rw [hu] at he
    exact h.net m (hmsg m hm hty) hty e (List.mem_of_mem_drop he)

theorem Stems.next (h : Stems P s H) (hI : Inv S s H) {e : Event} (hc : Change S H H' s e s')
    (hno : ∀ q i m, e.input? = some (q,i) → i.message? = some m → m.type ≠ .installSnapshot) (hnoop : P .noop [])
    (hprop : Proposes P e) : Stems P s' H' := by
  -- Only node `n` can have a new log, made of its old one and of what it writes.
  have hlogs : ∀ {n : Nat} {u : List Entry} {k : Nat}, Frame n H H' → (H'.log n = H.log n ∨
      H'.log n = (H.log n).take k ++ u) → (∀ x ∈ u, P x.type x.data) →
      ∀ q ∈ S.peers, ∀ x ∈ H'.log q, P x.type x.data := by
    intro n u k hf hlog hu q hq x hx
    by_cases hqn : q = n
    · subst hqn
      rcases hlog with hlog | hlog <;> rw [hlog] at hx
      · exact h.log q hq x hx
      · exact (List.mem_append.mp hx).elim (fun hx => h.log q hq x (List.mem_of_mem_take hx)) (hu x)
    · rw [hf.log q hqn] at hx
      exact h.log q hq x hx
  cases hc with
  | idle hH hs =>
    rw [hH,hs]
    exact h
  | fell _ _ hH hs | started _ _ hH _ _ hs | compacted _ _ hH _ _ hs =>
    rw [hH,hs]
    exact ⟨h.log,h.net⟩
  | @ran n i p _ _ _ he hn hi hp hf hr _ _ _ _ hs =>
    obtain ⟨_,_,_,_,heff,_⟩ := hI.input hn hp hi
    have hpk := (hI.hosts n hn).peer p hp
    have hsn := heff.no_snapshot hpk.clean.1 (hno n i · he)
    have hnew := hlogs hf (.inr (hpk.log_after hf hr heff.kept hsn))
      (h.written hI hn hp hi (hno n i · he) hnoop (hprop n i · he))
    refine ⟨hnew,fun m hm hty x hx => ?_⟩
    rw [hs] at hm
    rcases List.mem_append.mp hm with hm | hm
    · obtain ⟨limit,next,_,hd⟩ := hI.sent hn hp hi hm (.inl hty)
      split_ifs at hd
      · exact nomatch hty.symm.trans hd.type
      · obtain ⟨k,hk⟩ := List.mem_iff_getElem?.mp hx
        exact hnew n hn x (List.mem_of_getElem? (entry?_some hr.ok.log.repr (hd.entries k x hk).1).2)
    · exact h.net m hm hty x hx
  | @died n i p _ _ _ he hn hi hp hf _ _ _ _ _ hs _ hlog =>
    obtain ⟨_,_,_,_,heff,_⟩ := hI.input hn hp hi
    have hpk := (hI.hosts n hn).peer p hp
    have hu := h.written hI hn hp hi (hno n i · he) hnoop (hprop n i · he)
    refine ⟨?_,by rw [hs]; exact h.net⟩
    rcases hlog (heff.no_snapshot hpk.clean.1 (hno n i · he)) with hsame | ⟨j,_,hj⟩
    · exact hlogs (u := []) (k := 0) hf (.inl hsame) (by simp)
    · exact hlogs hf (.inr hj) fun x hx => hu x (List.mem_of_mem_take hx)

end Parallax.Cluster
