import Parallax.Consensus.Operations

/-! Elected leaders, and what an operation of one node leaves alone at the others. -/
namespace Parallax.Consensus
namespace History
variable {ν ε : Type} {qs : Quorums ν} {τ : ε → Nat} {H H' H'' : History ν ε}

def Elected (H : History ν ε) (t : Nat) (c : ν) : Prop :=
  ∃ el ∈ H.elections, el.term = t ∧ el.leader = c

/-- A quorum voted for `c` in term `t`. -/
def Backed (qs : Quorums ν) (H : History ν ε) (t : Nat) (c : ν) : Prop :=
  ∃ Q, qs.IsQuorum Q ∧ ∀ q ∈ Q, ∃ b, H.ballot q t = some b ∧ b.cand = c

theorem Elected.mem_terms {t : Nat} {c : ν} (h : H.Elected t c) : t ∈ terms H.elections := by
  obtain ⟨el,hel,rfl,_⟩ := h
  exact List.mem_map_of_mem hel

theorem Elected.ext {t : Nat} {c : ν} (h : H.Elected t c) (hx : Ext H H') : H'.Elected t c := by
  obtain ⟨el,hel,h⟩ := h
  exact ⟨el,hx.elections.subset hel,h⟩

theorem Backed.ext {t : Nat} {c : ν} (h : H.Backed qs t c) (hx : Ext H H') : H'.Backed qs t c := by
  obtain ⟨Q,hQ,h⟩ := h
  refine ⟨Q,hQ,fun q hq => ?_⟩
  obtain ⟨b,hb,hc⟩ := h q hq
  exact ⟨b,hx.ballot _ _ _ hb,hc⟩

theorem Backed.unique {t : Nat} {c c' : ν} (h : H.Backed qs t c) (h' : H.Backed qs t c') : c = c' := by
  obtain ⟨Q,hQ,h⟩ := h
  obtain ⟨Q',hQ',h'⟩ := h'
  obtain ⟨q,hq,hq'⟩ := qs.inter hQ hQ'
  obtain ⟨b,hb,rfl⟩ := h q hq
  obtain ⟨b',hb',rfl⟩ := h' q hq'
  rw [hb] at hb'
  rw [Option.some.inj hb']

private theorem Won.backed : ∀ els : List (Election ν), H.Won qs τ els → ∀ el ∈ els,
    H.Backed qs el.term el.leader
  | [], _, _, hel => by simp at hel
  | el' :: older, ⟨⟨_,hv,_,_,_,_,hvote⟩,hw⟩, el, hel => by
    rcases List.mem_cons.mp hel with rfl | hel
    · refine ⟨el.voters,hv,fun q hq => ?_⟩
      obtain ⟨b,hb,hc,_⟩ := hvote q hq
      exact ⟨b,hb,hc⟩
    · exact Won.backed older hw el hel

theorem Inv.backed (I : H.Inv qs τ) {t : Nat} {c : ν} (h : H.Elected t c) : H.Backed qs t c := by
  obtain ⟨el,hel,rfl,rfl⟩ := h
  exact Won.backed _ I.won el hel

theorem Inv.elected_unique (I : H.Inv qs τ) {t : Nat} {c c' : ν} (h : H.Elected t c)
    (h' : H.Elected t c') : c = c' := (I.backed h).unique (I.backed h')

theorem Inv.committedBy_of_quiet (I : H.Inv qs τ) {T : Nat} {Q : Finset ν} (hQ : qs.IsQuorum Q)
    (hq : ∀ v ∈ Q, ∀ t, T < t → H.ballot v t = none) {t : Nat} {p : List ε} (h : H.CommittedBy t p) :
    H.CommittedBy T p := by
  obtain ⟨s,_,hp⟩ := h
  by_cases hz : H.com s = 0
  · rw [hz,List.take_zero,List.prefix_nil] at hp
    rw [hp]
    exact .nil T
  refine ⟨s,Nat.not_lt.mp fun hlt => ?_,hp⟩
  obtain ⟨el,hel,rfl⟩ := List.mem_map.mp (I.com_ok s hz).1
  obtain ⟨Q',hQ',hb⟩ := I.backed ⟨el,hel,rfl,rfl⟩
  obtain ⟨v,hv,hv'⟩ := qs.inter hQ hQ'
  obtain ⟨b,hb,_⟩ := hb v hv'
  rw [hq v hv _ hlt] at hb
  cases hb

theorem CommittedBy.length_le (I : H.Inv qs τ) {T i : Nat} (hT : T ∈ terms H.elections) (hc : H.com T ≤ i)
    {q : List ε} {e : ε} (hq : q ++ [e] <+: H.lead T) (hi : q.length + 1 = i) (he : τ e = T) {p : List ε}
    (h : H.CommittedBy T p) : p.length ≤ i := by
  have hlead := h.prefix_lead I hT le_rfl
  obtain ⟨s,hs,hp⟩ := h
  rcases Nat.lt_or_eq_of_le hs with hlt | rfl
  · refine Nat.not_lt.mp fun hlong => ?_
    have hqp : q ++ [e] <+: p := List.prefix_of_prefix_length_le hq hlead (by simp; omega)
    have hmem : e ∈ H.lead s := (hqp.trans (hp.trans (List.take_prefix _ _))).subset (by simp)
    have := I.lead_le s e hmem
    omega
  · exact (hp.length_le.trans (List.length_take_le _ _)).trans hc

theorem exists_elected {t : Nat} (h : t ∈ terms H.elections) : ∃ c, H.Elected t c := by
  obtain ⟨el,hel,rfl⟩ := List.mem_map.mp h
  exact ⟨el.leader,el,hel,rfl,rfl⟩

theorem Inv.writable_elect [DecidableEq ν] (I : H.Inv qs τ) {c : ν} {t : Nat} {Q : Finset ν} {e₀ : ε}
    (hpos : 0 < t) (hcand : H.cand c t = some (H.log c)) (hfresh : ¬ H.Elected t c)
    (hQ : qs.IsQuorum Q) (hb : ∀ q ∈ Q, ∃ b, H.ballot q t = some b ∧ b.cand = c) (he₀ : τ e₀ = t)
    (hsolo : qs.Solo → (∀ e ∈ H.log c, τ e ≤ t) ∧ H.lead t <+: H.log c ∧
      ∀ q ∈ Q, ∀ b, H.ballot q t = some b → b.log = H.log c) :
    Writable qs τ H c t [e₀] [{ term := t, leader := c, voters := Q }] := by
  have hnew : t ∉ terms H.elections := by
    intro ht
    obtain ⟨c',hc'⟩ := exists_elected ht
    rw [(I.backed hc').unique ⟨Q,hQ,hb⟩] at hc'
    exact hfresh hc'
  have hlt : ¬ qs.Solo → ∀ e ∈ H.log c, τ e < t := by
    intro hs e he
    by_contra hle
    obtain ⟨Q',hQ',hd⟩ := I.doomed hs c t _ hcand e he (not_lt.mp hle)
    obtain ⟨q,hq,hq'⟩ := qs.inter hQ hQ'
    obtain ⟨b,hbq,hbc⟩ := hb q hq
    exact (hd q hq').2 b hbq hbc
  have hlog : H.lead t <+: H.log c := by
    by_cases hs : qs.Solo
    · exact (hsolo hs).2.1
    have : H.lead t = [] := by
      by_contra hne
      exact hnew (I.lead_elected hs t hne)
    rw [this]
    exact List.nil_prefix
  have hx : Ext H (H.write c t [e₀] [{ term := t, leader := c, voters := Q }]) := Ext.write _ _ hlog
  refine
    { pos := hpos
      entries := by simpa using he₀
      log_le := fun e he => ?_
      lead_log := hlog
      elected := fun _ => by simp [terms]
      won := ⟨⟨hnew,hQ,H.log c,e₀,he₀,?_,fun q hq => ?_⟩,I.won.ext hx⟩ }
  · by_cases hs : qs.Solo
    · exact (hsolo hs).1 e he
    · exact (hlt hs e he).le
  · rw [write_lead_self]
  obtain ⟨b,hbq,hbc⟩ := hb q hq
  refine ⟨b,hbq,hbc,I.ballot_seen q t b hbq,?_⟩
  by_cases hs : qs.Solo
  · exact .inl ((hsolo hs).2.2 q hq b hbq)
  obtain ⟨l,hl,hu⟩ := I.ballot_cand q t b hbq
  rw [hbc,hcand] at hl
  obtain rfl := Option.some.inj hl
  refine .inr ⟨hu,fun e he => ⟨hlt hs e he,I.lead_elected hs _ ?_⟩⟩
  obtain ⟨p,s,hps⟩ := List.append_of_mem he
  have := I.log_coh c p e ⟨s,by simp [hps]⟩
  exact List.ne_nil_of_mem (this.subset (List.mem_append_right p (List.mem_singleton_self e)))

/-- A step taken by node `n`: nothing is taken back, and what is recorded of the other
nodes, and of the terms they lead, stays as it is. -/
structure Frame (n : ν) (H H' : History ν ε) : Prop where
  ext : Ext H H'
  log : ∀ q, q ≠ n → H'.log q = H.log q
  ack : ∀ q, q ≠ n → H'.ack q = H.ack q
  ballot : ∀ q, q ≠ n → H'.ballot q = H.ballot q
  cand : ∀ q, q ≠ n → H'.cand q = H.cand q
  elected : ∀ q, q ≠ n → ∀ t, H'.Elected t q → H.Elected t q
  lead : ∀ q, q ≠ n → ∀ t, H.Elected t q → H'.lead t = H.lead t
  com : ∀ q, q ≠ n → ∀ t, H.Elected t q → H'.com t = H.com t

namespace Frame

theorem refl (n : ν) (H : History ν ε) : Frame n H H :=
  ⟨Ext.refl H,fun _ _ => rfl,fun _ _ => rfl,fun _ _ => rfl,fun _ _ => rfl,fun _ _ _ h => h,
    fun _ _ _ _ => rfl,fun _ _ _ _ => rfl⟩

theorem trans {n : ν} (h : Frame n H H') (h' : Frame n H' H'') : Frame n H H'' where
  ext := h.ext.trans h'.ext
  log q hq := (h'.log q hq).trans (h.log q hq)
  ack q hq := (h'.ack q hq).trans (h.ack q hq)
  ballot q hq := (h'.ballot q hq).trans (h.ballot q hq)
  cand q hq := (h'.cand q hq).trans (h.cand q hq)
  elected q hq t ht := h.elected q hq t (h'.elected q hq t ht)
  lead q hq t ht := (h'.lead q hq t (ht.ext h.ext)).trans (h.lead q hq t ht)
  com q hq t ht := (h'.com q hq t (ht.ext h.ext)).trans (h.com q hq t ht)

theorem commit {n : ν} {t : Nat} (hown : ∀ q, q ≠ n → ¬ H.Elected t q) (i : Nat) :
    Frame n H (H.commit t i) where
  ext := Ext.commit H t i
  log _ _ := rfl
  ack _ _ := rfl
  ballot _ _ := rfl
  cand _ _ := rfl
  elected _ _ _ h := h
  lead _ _ _ _ := rfl
  com q hq t' ht' := by
    have : t' ≠ t := by
      rintro rfl
      exact hown q hq ht'
    exact commit_com_ne _ _ _ this

variable [DecidableEq ν] {n : ν} {t : Nat}

theorem campaign (h : H.cand n t = none) : Frame n H (H.campaign n t) where
  ext := Ext.campaign h
  log _ _ := rfl
  ack _ _ := rfl
  ballot _ _ := rfl
  cand q hq := by
    funext t'
    rw [campaign_cand,if_neg (fun h => hq h.1)]
  elected _ _ _ h := h
  lead _ _ _ _ := rfl
  com _ _ _ _ := rfl

theorem vote {c : ν} (h : H.ballot n t = none) : Frame n H (H.vote n t c) where
  ext := Ext.vote h
  log _ _ := rfl
  ack _ _ := rfl
  ballot q hq := by
    funext t'
    rw [vote_ballot,if_neg (fun h => hq h.1)]
  cand _ _ := rfl
  elected _ _ _ h := h
  lead _ _ _ _ := rfl
  com _ _ _ _ := rfl

theorem accept (n : ν) (l : List ε) : Frame n H (H.accept n l) where
  ext := Ext.accept H n l
  log _ hq := accept_log_ne _ _ _ hq
  ack _ _ := rfl
  ballot _ _ := rfl
  cand _ _ := rfl
  elected _ _ _ h := h
  lead _ _ _ _ := rfl
  com _ _ _ _ := rfl

theorem acknowledge (n : ν) (t i : Nat) : Frame n H (H.acknowledge n t i) where
  ext := Ext.acknowledge H n t i
  log _ _ := rfl
  ack q hq := by
    funext t'
    rw [acknowledge_ack,if_neg (fun h => hq h.1)]
  ballot _ _ := rfl
  cand _ _ := rfl
  elected _ _ _ h := h
  lead _ _ _ _ := rfl
  com _ _ _ _ := rfl

theorem write {es : List ε} {els : List (Election ν)} (h : H.lead t <+: H.log n)
    (hown : ∀ q, q ≠ n → ¬ H.Elected t q) (hels : ∀ el ∈ els, el.leader = n) :
    Frame n H (H.write n t es els) where
  ext := Ext.write es els h
  log _ hq := write_log_ne _ _ _ _ _ hq
  ack _ _ := rfl
  ballot _ _ := rfl
  cand _ _ := rfl
  elected _ hq t' := by
    rintro ⟨el,hel,ht,hl⟩
    rcases List.mem_append.mp hel with hel | hel
    · exact absurd (hl ▸ hels el hel) hq
    · exact ⟨el,hel,ht,hl⟩
  lead q hq t' ht' := by
    have : t' ≠ t := by
      rintro rfl
      exact hown q hq ht'
    exact write_lead_ne _ _ _ _ _ this
  com _ _ _ _ := rfl

end Frame
end History
end Parallax.Consensus
