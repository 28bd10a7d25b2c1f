import Parallax.Consensus.History

/-! Leader completeness: a prefix that a quorum acknowledged through an entry of the
acknowledging term is part of the log of every leader elected in a later term. -/
namespace Parallax.Consensus
namespace History
variable {ν ε : Type} {qs : Quorums ν} {τ : ε → Nat} {H : History ν ε}

theorem lastTerm_append_singleton (p : List ε) (e : ε) : lastTerm τ (p ++ [e]) = τ e := by
  simp [lastTerm]

@[simp] theorem lastTerm_nil : lastTerm τ ([] : List ε) = 0 := rfl

/-- A coherent log is a prefix of the log of its last entry's leader. -/
theorem Coherent.prefix_lead {l : List ε} (h : H.Coherent τ l) : l <+: H.lead (lastTerm τ l) := by
  rcases List.eq_nil_or_concat l with rfl | ⟨p,e,rfl⟩
  · exact List.nil_prefix
  · rw [List.concat_eq_append,lastTerm_append_singleton]
    exact h p e (by rw [List.concat_eq_append])

theorem Coherent.sorted (I : H.Inv qs τ) {l : List ε} (h : H.Coherent τ l) :
    l.Pairwise (fun a b => τ a ≤ τ b) :=
  (I.lead_sorted _).sublist h.prefix_lead.sublist

theorem Coherent.le_lastTerm (I : H.Inv qs τ) {l : List ε} (h : H.Coherent τ l) {e : ε}
    (he : e ∈ l) : τ e ≤ lastTerm τ l :=
  I.lead_le _ _ (h.prefix_lead.subset he)

theorem Coherent.pos (I : H.Inv qs τ) {l : List ε} (h : H.Coherent τ l) {e : ε} (he : e ∈ l) :
    0 < τ e := by
  obtain ⟨p,s,rfl⟩ := List.append_of_mem he
  have hp := h p e ⟨s,by simp⟩
  by_contra hz
  rw [Nat.eq_zero_of_not_pos hz,I.lead_zero] at hp
  simpa using List.prefix_nil.mp hp

theorem upToDate_prefix (I : H.Inv qs τ) {v base p : List ε} {e : ε}
    (hv : H.Coherent τ v) (hb : H.Coherent τ base) (hp : p ++ [e] <+: v)
    (hu : UpToDate τ base.length (lastTerm τ base) v)
    (hl : ∀ e' ∈ base, τ e < τ e' → p ++ [e] <+: H.lead (τ e')) : p ++ [e] <+: base := by
  have hpe : p ++ [e] <+: H.lead (τ e) := hv p e hp
  have hev : τ e ≤ lastTerm τ v := hv.le_lastTerm I (hp.subset (by simp))
  rcases List.eq_nil_or_concat base with rfl | ⟨base,e',rfl⟩
  · rcases hu with hu | ⟨_,hu⟩
    · simp at hu
    have := hp.length_le
    simp only [List.length_append,List.length_cons,List.length_nil] at this hu
    omega
  rw [List.concat_eq_append] at *
  have hbl := hb.prefix_lead
  rw [lastTerm_append_singleton] at hbl hu
  have hge : τ e ≤ τ e' := by rcases hu with hu | ⟨hu,_⟩ <;> omega
  rcases Nat.lt_or_eq_of_le hge with hlt | heq
  · -- The last entry of the base belongs to a later leader, which holds the prefix.
    rcases List.prefix_or_prefix_of_prefix (hl e' (by simp) hlt) hbl with h | h
    · exact h
    · have := I.lead_le _ e' (hpe.subset (h.subset (by simp)))
      omega
  -- Both logs end in the term of the prefix, so the longer one contains it.
  rw [← heq] at hbl
  apply List.prefix_of_prefix_length_le hpe hbl
  rcases hu with hu | ⟨_,hu⟩
  · omega
  · exact hp.length_le.trans hu

private theorem won_prefix (I : H.Inv qs τ) {t i : Nat} (hc : H.Committable qs τ t i) :
    ∀ els, H.Won qs τ els → ∀ s ∈ terms els, t < s → (H.lead t).take i <+: H.lead s := by
  obtain ⟨_,⟨p,e,hp,hi,he⟩,Q,hQ,hack⟩ := hc
  have hx : (H.lead t).take i = p ++ [e] := by
    rw [List.prefix_iff_eq_take] at hp
    rw [hp]
    simp [hi]
  rw [hx]
  intro els
  induction els with
  | nil => simp [terms]
  | cons el older ih =>
    intro ⟨⟨_,hv,base,e₀,_,hbase,hvote⟩,hw⟩ s hs hlt
    rcases List.mem_cons.mp hs with rfl | hs
    swap
    · exact ih hw s hs hlt
    obtain ⟨q,hq,hqv⟩ := qs.inter hQ hv
    obtain ⟨b,hb,_,hseen,hlog⟩ := hvote q hqv
    have hbl : p ++ [e] <+: b.log := by
      rw [← hx]
      apply I.ballot_log q _ b hb t hlt i (hack q hq)
      intro s' hs' hlt'
      rw [hx]
      exact ih hw s' (hseen s' hs') hlt'
    have hbp : base <+: H.lead el.term := (List.prefix_append _ _).trans hbase
    suffices p ++ [e] <+: base from this.trans hbp
    rcases hlog with rfl | ⟨hu,hterms⟩
    · exact hbl
    apply upToDate_prefix I (I.ballot_coh q _ b hb) ((I.lead_coh _).of_isPrefix hbp) hbl hu
    intro e' he' hlt'
    exact ih hw _ (hterms e' he').2 (he ▸ hlt')

theorem Inv.completeness (I : H.Inv qs τ) {t i s : Nat} (hc : H.Committable qs τ t i)
    (hs : s ∈ terms H.elections) (hlt : t < s) : (H.lead t).take i <+: H.lead s :=
  won_prefix I hc H.elections I.won s hs hlt

/-- `p` is part of what some leader of a term up to `t` committed. -/
def CommittedBy (H : History ν ε) (t : Nat) (p : List ε) : Prop :=
  ∃ s ≤ t, p <+: (H.lead s).take (H.com s)

theorem CommittedBy.nil (t : Nat) : H.CommittedBy t [] := ⟨0,Nat.zero_le _,List.nil_prefix⟩

theorem CommittedBy.of_isPrefix {t : Nat} {p p' : List ε} (h : H.CommittedBy t p) (hp : p' <+: p) :
    H.CommittedBy t p' := by
  obtain ⟨s,hs,h⟩ := h
  exact ⟨s,hs,hp.trans h⟩

theorem CommittedBy.mono {t t' : Nat} {p : List ε} (h : H.CommittedBy t p) (ht : t ≤ t') :
    H.CommittedBy t' p := by
  obtain ⟨s,hs,h⟩ := h
  exact ⟨s,hs.trans ht,h⟩

theorem CommittedBy.ext {H' : History ν ε} {t : Nat} {p : List ε} (h : H.CommittedBy t p)
    (hx : Ext H H') : H'.CommittedBy t p := by
  obtain ⟨s,hs,h⟩ := h
  refine ⟨s,hs,h.trans ?_⟩
  exact (List.IsPrefix.take (hx.lead s) _).trans (List.take_prefix_take_left (hx.com s))

theorem CommittedBy.prefix_lead (I : H.Inv qs τ) {t s : Nat} {p : List ε}
    (h : H.CommittedBy t p) (hs : s ∈ terms H.elections) (hts : t ≤ s) : p <+: H.lead s := by
  obtain ⟨u,hu,h⟩ := h
  by_cases hz : H.com u = 0
  · rw [hz,List.take_zero,List.prefix_nil] at h
    simp [h]
  rcases Nat.lt_or_eq_of_le (hu.trans hts) with hlt | rfl
  · exact h.trans (I.completeness (I.com_ok u hz) hs hlt)
  · exact h.trans (List.take_prefix _ _)

/-- What is committed is in the logs of a quorum. -/
theorem CommittedBy.held (I : H.Inv qs τ) {t : Nat} {p : List ε} (h : H.CommittedBy t p) (hp : p ≠ []) :
    ∃ Q, qs.IsQuorum Q ∧ ∀ q ∈ Q, p <+: H.log q := by
  obtain ⟨s,_,h⟩ := h
  have hz : H.com s ≠ 0 := by
    intro hz
    rw [hz,List.take_zero,List.prefix_nil] at h
    exact hp h
  have hc := I.com_ok s hz
  obtain ⟨_,_,Q,hQ,hack⟩ := id hc
  exact ⟨Q,hQ,fun q hq => h.trans (I.ack_log q s _ (hack q hq) fun s' hs' hlt => I.completeness hc hs' hlt)⟩

/-- Committed prefixes never disagree. -/
theorem CommittedBy.comparable (I : H.Inv qs τ) {t t' : Nat} {p p' : List ε}
    (h : H.CommittedBy t p) (h' : H.CommittedBy t' p') : p <+: p' ∨ p' <+: p := by
  obtain ⟨s,_,hp⟩ := h
  obtain ⟨s',_,hp'⟩ := h'
  by_cases hz : H.com s = 0
  · rw [hz,List.take_zero,List.prefix_nil] at hp
    exact .inl (by simp [hp])
  by_cases hz' : H.com s' = 0
  · rw [hz',List.take_zero,List.prefix_nil] at hp'
    exact .inr (by simp [hp'])
  have hc : ∀ {u u' : Nat}, u ≤ u' → H.com u ≠ 0 → H.com u' ≠ 0 →
      (H.lead u).take (H.com u) <+: H.lead u' := by
    intro u u' hle hu hu'
    rcases Nat.lt_or_eq_of_le hle with hlt | rfl
    · exact I.completeness (I.com_ok u hu) (I.com_ok u' hu').1 hlt
    · exact List.take_prefix _ _
  rcases Nat.le_total s s' with hle | hle
  · exact List.prefix_or_prefix_of_prefix (hp.trans (hc hle hz hz'))
      (hp'.trans (List.take_prefix _ _))
  · exact List.prefix_or_prefix_of_prefix (hp.trans (List.take_prefix _ _))
      (hp'.trans (hc hle hz' hz))

theorem CommittedBy.gather (I : H.Inv qs τ) {α : Type} {P : α → List ε → Prop}
    (hmono : ∀ a p p', p <+: p' → P a p → P a p') :
    ∀ as : List α, (∀ a ∈ as, ∃ t p, H.CommittedBy t p ∧ P a p) →
      ∃ t p, H.CommittedBy t p ∧ ∀ a ∈ as, P a p
  | [], _ => ⟨0,[],.nil 0,by simp⟩
  | a :: as, h => by
    obtain ⟨t,p,hc,hp⟩ := CommittedBy.gather I hmono as fun a' ha' => h a' (by simp [ha'])
    obtain ⟨t',p',hc',hp'⟩ := h a (by simp)
    rcases hc.comparable I hc' with hle | hle
    · refine ⟨t',p',hc',fun a' ha' => ?_⟩
      rcases List.mem_cons.mp ha' with rfl | ha'
      · exact hp'
      · exact hmono _ _ _ hle (hp a' ha')
    refine ⟨t,p,hc,fun a' ha' => ?_⟩
    rcases List.mem_cons.mp ha' with rfl | ha'
    · exact hmono _ _ _ hle hp'
    · exact hp a' ha'

theorem Coherent.matching {l m p p' : List ε} {e e' : ε} (hl : H.Coherent τ l)
    (hm : H.Coherent τ m) (hp : p ++ [e] <+: l) (hp' : p' ++ [e'] <+: m)
    (hlen : p.length = p'.length) (ht : τ e = τ e') : p ++ [e] = p' ++ [e'] := by
  have h := hl p e hp
  have h' := hm p' e' hp'
  rw [← ht] at h'
  rcases List.prefix_or_prefix_of_prefix h h' with h | h
  · exact h.eq_of_length (by simp [hlen])
  · exact (h.eq_of_length (by simp [hlen])).symm

end History
end Parallax.Consensus
