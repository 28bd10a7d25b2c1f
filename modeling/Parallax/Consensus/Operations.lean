import Parallax.Consensus.Completeness

/-! The operations of the protocol on its history; each keeps the invariant. -/
namespace Parallax.Consensus
namespace History
variable {ν ε : Type} {qs : Quorums ν} {τ : ε → Nat} {H : History ν ε}

theorem Won.ext {H' : History ν ε} (hx : Ext H H') :
    ∀ {els : List (Election ν)}, H.Won qs τ els → H'.Won qs τ els := by
  intro els
  induction els with
  | nil => exact fun h => h
  | cons el older ih =>
    rintro ⟨⟨hn,hq,base,e₀,he,hb,hv⟩,hw⟩
    refine ⟨⟨hn,hq,base,e₀,he,hb.trans (hx.lead _),?_⟩,ih hw⟩
    intro q hq
    obtain ⟨b,hb,h⟩ := hv q hq
    exact ⟨b,hx.ballot _ _ _ hb,h⟩

theorem Committable.ext {H' : History ν ε} (hx : Ext H H') {t i : Nat}
    (h : H.Committable qs τ t i) : H'.Committable qs τ t i := by
  obtain ⟨ht,⟨p,e,hp,hi,he⟩,Q,hQ,hack⟩ := h
  exact ⟨hx.mem_terms ht,⟨p,e,hp.trans (hx.lead t),hi,he⟩,Q,hQ,
    fun q hq => (hack q hq).trans (hx.ack q t)⟩

/-- Every elected leader wrote an entry of its own term. -/
theorem Won.own {els : List (Election ν)} (h : H.Won qs τ els) {t : Nat} (ht : t ∈ terms els) :
    ∃ e ∈ H.lead t, τ e = t := by
  induction els with
  | nil => simp [terms] at ht
  | cons el older ih =>
    rcases List.mem_cons.mp ht with rfl | ht
    · obtain ⟨⟨_,_,base,e₀,he,hb,_⟩,_⟩ := h
      exact ⟨e₀,hb.subset (by simp),he⟩
    · exact ih h.2 ht

theorem Inv.empty : (History.empty : History ν ε).Inv qs τ := by
  constructor <;> simp [History.empty,Coherent,terms,Won]

/-- The leader of `t` commits through `i`. -/
def commit (H : History ν ε) (t i : Nat) : History ν ε :=
  { H with com := Function.update H.com t (max (H.com t) i) }

section
variable (t t' n : Nat)

@[simp] theorem commit_lead : (H.commit t n).lead = H.lead := rfl
@[simp] theorem commit_elections : (H.commit t n).elections = H.elections := rfl
@[simp] theorem commit_log : (H.commit t n).log = H.log := rfl
@[simp] theorem commit_ack : (H.commit t n).ack = H.ack := rfl
@[simp] theorem commit_ballot : (H.commit t n).ballot = H.ballot := rfl
@[simp] theorem commit_cand : (H.commit t n).cand = H.cand := rfl
@[simp] theorem commit_com_self : (H.commit t n).com t = max (H.com t) n := by simp [commit]
theorem commit_com_ne (h : t' ≠ t) : (H.commit t n).com t' = H.com t' := by simp [commit,h]

end

theorem Ext.commit (H : History ν ε) (t i : Nat) : Ext H (H.commit t i) where
  lead _ := List.prefix_rfl
  elections := List.suffix_rfl
  cand _ _ _ hc := hc
  ballot _ _ _ hb := hb
  ack _ _ := le_rfl
  com t' := by
    by_cases h : t' = t
    · subst h
      simp
    · rw [commit_com_ne _ _ _ h]

theorem Inv.commit (I : H.Inv qs τ) {t i : Nat} (h : H.Committable qs τ t i) :
    (H.commit t i).Inv qs τ := by
  have hx := Ext.commit H t i
  refine { I with won := I.won.ext hx, com_ok := ?_ }
  intro s hs
  by_cases hst : s = t
  · subst hst
    rw [commit_com_self] at hs ⊢
    rcases Nat.le_total (H.com s) i with hle | hle
    · rw [max_eq_right hle]
      exact h.ext hx
    · rw [max_eq_left hle] at hs ⊢
      exact (I.com_ok s hs).ext hx
  · rw [commit_com_ne _ _ _ hst] at hs ⊢
    exact (I.com_ok s hs).ext hx

variable [DecidableEq ν]

private def set₂ {α : Type} (f : ν → Nat → α) (q : ν) (t : Nat) (a : α) : ν → Nat → α :=
  fun q' t' => if q' = q ∧ t' = t then a else f q' t'

/-- Candidate `c` asks for votes in term `t` with its current log. -/
def campaign (H : History ν ε) (c : ν) (t : Nat) : History ν ε :=
  { H with cand := set₂ H.cand c t (some (H.log c)) }

/-- `q` grants its vote in term `t` to `c`. -/
def vote (H : History ν ε) (q : ν) (t : Nat) (c : ν) : History ν ε :=
  { H with ballot := set₂ H.ballot q t (some { cand := c, log := H.log q, seen := terms H.elections }) }

/-- `q` takes over the log `l` from a leader. -/
def accept (H : History ν ε) (q : ν) (l : List ε) : History ν ε :=
  { H with log := Function.update H.log q l }

/-- `q` acknowledges the log of the leader of `t` through `n`. -/
def acknowledge (H : History ν ε) (q : ν) (t n : Nat) : History ν ε :=
  { H with ack := set₂ H.ack q t (max (H.ack q t) n) }

/-- `c` writes `es` behind its own log as entries of term `t`; `els` are new elections. -/
def write (H : History ν ε) (c : ν) (t : Nat) (es : List ε) (els : List (Election ν)) :
    History ν ε :=
  { H with
    lead := Function.update H.lead t (H.log c ++ es)
    log := Function.update H.log c (H.log c ++ es)
    elections := els ++ H.elections }

section simps
variable (c q q' : ν) (t t' n : Nat) (l : List ε)

@[simp] theorem campaign_lead : (H.campaign c t).lead = H.lead := rfl
@[simp] theorem campaign_elections : (H.campaign c t).elections = H.elections := rfl
@[simp] theorem campaign_log : (H.campaign c t).log = H.log := rfl
@[simp] theorem campaign_ack : (H.campaign c t).ack = H.ack := rfl
@[simp] theorem campaign_ballot : (H.campaign c t).ballot = H.ballot := rfl
@[simp] theorem campaign_com : (H.campaign c t).com = H.com := rfl
theorem campaign_cand : (H.campaign c t).cand q t' =
    if q = c ∧ t' = t then some (H.log c) else H.cand q t' := rfl
@[simp] theorem campaign_cand_self : (H.campaign c t).cand c t = some (H.log c) := by
  simp [campaign_cand]

@[simp] theorem vote_lead : (H.vote q t c).lead = H.lead := rfl
@[simp] theorem vote_elections : (H.vote q t c).elections = H.elections := rfl
@[simp] theorem vote_log : (H.vote q t c).log = H.log := rfl
@[simp] theorem vote_ack : (H.vote q t c).ack = H.ack := rfl
@[simp] theorem vote_cand : (H.vote q t c).cand = H.cand := rfl
@[simp] theorem vote_com : (H.vote q t c).com = H.com := rfl
theorem vote_ballot : (H.vote q t c).ballot q' t' = if q' = q ∧ t' = t then
    some { cand := c, log := H.log q, seen := terms H.elections } else H.ballot q' t' := rfl
@[simp] theorem vote_ballot_self : (H.vote q t c).ballot q t =
    some { cand := c, log := H.log q, seen := terms H.elections } := by simp [vote_ballot]

@[simp] theorem accept_lead : (H.accept q l).lead = H.lead := rfl
@[simp] theorem accept_elections : (H.accept q l).elections = H.elections := rfl
@[simp] theorem accept_ack : (H.accept q l).ack = H.ack := rfl
@[simp] theorem accept_ballot : (H.accept q l).ballot = H.ballot := rfl
@[simp] theorem accept_cand : (H.accept q l).cand = H.cand := rfl
@[simp] theorem accept_com : (H.accept q l).com = H.com := rfl
@[simp] theorem accept_log_self : (H.accept q l).log q = l := by simp [accept]
theorem accept_log_ne (h : q' ≠ q) : (H.accept q l).log q' = H.log q' := by simp [accept,h]

@[simp] theorem acknowledge_lead : (H.acknowledge q t n).lead = H.lead := rfl
@[simp] theorem acknowledge_elections : (H.acknowledge q t n).elections = H.elections := rfl
@[simp] theorem acknowledge_log : (H.acknowledge q t n).log = H.log := rfl
@[simp] theorem acknowledge_ballot : (H.acknowledge q t n).ballot = H.ballot := rfl
@[simp] theorem acknowledge_cand : (H.acknowledge q t n).cand = H.cand := rfl
@[simp] theorem acknowledge_com : (H.acknowledge q t n).com = H.com := rfl
theorem acknowledge_ack : (H.acknowledge q t n).ack q' t' =
    if q' = q ∧ t' = t then max (H.ack q t) n else H.ack q' t' := rfl
@[simp] theorem acknowledge_ack_self :
    (H.acknowledge q t n).ack q t = max (H.ack q t) n := by simp [acknowledge_ack]

variable (es : List ε) (els : List (Election ν))
@[simp] theorem write_elections : (H.write c t es els).elections = els ++ H.elections := rfl
@[simp] theorem write_ack : (H.write c t es els).ack = H.ack := rfl
@[simp] theorem write_ballot : (H.write c t es els).ballot = H.ballot := rfl
@[simp] theorem write_cand : (H.write c t es els).cand = H.cand := rfl
@[simp] theorem write_com : (H.write c t es els).com = H.com := rfl
@[simp] theorem write_lead_self : (H.write c t es els).lead t = H.log c ++ es := by simp [write]
theorem write_lead_ne (h : t' ≠ t) : (H.write c t es els).lead t' = H.lead t' := by simp [write,h]
@[simp] theorem write_log_self : (H.write c t es els).log c = H.log c ++ es := by simp [write]
theorem write_log_ne (h : q ≠ c) : (H.write c t es els).log q = H.log q := by simp [write,h]

theorem write_lead_forall {P : Nat → List ε → Prop} (hself : P t (H.log c ++ es))
    (hother : ∀ s, s ≠ t → P s (H.lead s)) (s : Nat) : P s ((H.write c t es els).lead s) := by
  by_cases hs : s = t
  · subst hs
    rw [write_lead_self]
    exact hself
  · rw [write_lead_ne _ _ _ _ _ hs]
    exact hother s hs

theorem write_log_forall {P : ν → List ε → Prop} (hself : P c (H.log c ++ es))
    (hother : ∀ q, q ≠ c → P q (H.log q)) (q : ν) : P q ((H.write c t es els).log q) := by
  by_cases hq : q = c
  · subst hq
    rw [write_log_self]
    exact hself
  · rw [write_log_ne _ _ _ _ _ hq]
    exact hother q hq

end simps

theorem Ext.campaign {c : ν} {t : Nat} (h : H.cand c t = none) : Ext H (H.campaign c t) where
  lead _ := List.prefix_rfl
  elections := List.suffix_rfl
  ballot _ _ _ hb := hb
  ack _ _ := le_rfl
  com _ := le_rfl
  cand c' t' l hl := by
    rw [campaign_cand]
    split
    · rename_i he
      rw [he.1,he.2,h] at hl
      cases hl
    · exact hl

theorem Inv.campaign (I : H.Inv qs τ) {c : ν} {t : Nat} (h : H.cand c t = none) :
    (H.campaign c t).Inv qs τ :=
  { I with
    ballot_cand := by
      intro q s b hb
      obtain ⟨l,hl,hu⟩ := I.ballot_cand q s b hb
      exact ⟨l,(Ext.campaign h).cand _ _ _ hl,hu⟩
    doomed := by
      intro hs c' t' l hl e he hle
      rw [campaign_cand] at hl
      split at hl
      · rename_i heq
        obtain ⟨rfl,rfl⟩ := heq
        cases hl
        -- The entry's leader was elected, and nobody voted for `c` in `t` before it asked.
        obtain ⟨p,s,hps⟩ := List.append_of_mem he
        have hne : H.lead (τ e) ≠ [] := by
          have := I.log_coh c' p e ⟨s,by simp [hps]⟩
          exact fun hz => by simp [hz] at this
        have hel := I.lead_elected hs _ hne
        have hwon : ∀ els, H.Won qs τ els → τ e ∈ terms els →
            ∃ Q, qs.IsQuorum Q ∧ ∀ v ∈ Q, H.ballot v (τ e) ≠ none := by
          intro els
          induction els with
          | nil => simp [terms]
          | cons el older ih =>
            intro hw hm
            rcases List.mem_cons.mp hm with hm | hm
            · obtain ⟨⟨_,hq,_,_,_,_,hv⟩,_⟩ := hw
              refine ⟨el.voters,hq,fun v hv' => ?_⟩
              obtain ⟨b,hb,_⟩ := hv v hv'
              rw [hm,hb]
              simp
            · exact ih hw.2 hm
        obtain ⟨Q,hQ,hv⟩ := hwon _ I.won hel
        refine ⟨Q,hQ,fun v hvQ => ⟨hv v hvQ,fun b hb hc => ?_⟩⟩
        obtain ⟨l,hl,_⟩ := I.ballot_cand _ _ _ hb
        rw [hc,h] at hl
        cases hl
      · exact I.doomed hs c' t' l hl e he hle
    won := I.won.ext (Ext.campaign h)
    com_ok := fun t ht => (I.com_ok t ht).ext (Ext.campaign h) }

theorem Ext.vote {q c : ν} {t : Nat} (h : H.ballot q t = none) : Ext H (H.vote q t c) where
  lead _ := List.prefix_rfl
  elections := List.suffix_rfl
  cand _ _ _ hc := hc
  ack _ _ := le_rfl
  com _ := le_rfl
  ballot q' t' b hb := by
    rw [vote_ballot]
    split
    · rename_i he
      rw [he.1,he.2,h] at hb
      cases hb
    · exact hb

theorem Inv.vote (I : H.Inv qs τ) {q c : ν} {t : Nat} {l : List ε} (h : H.ballot q t = none)
    (hlater : ∀ s, t < s → H.ballot q s = none) (hc : H.cand c t = some l)
    (hu : UpToDate τ l.length (lastTerm τ l) (H.log q)) : (H.vote q t c).Inv qs τ := by
  have hx : Ext H (H.vote q t c) := Ext.vote h
  have hcases : ∀ {q' t' b}, (H.vote q t c).ballot q' t' = some b →
      (q' = q ∧ t' = t ∧ b = { cand := c, log := H.log q, seen := terms H.elections }) ∨
        H.ballot q' t' = some b := by
    intro q' t' b hb
    rw [vote_ballot] at hb
    split at hb
    · rename_i he
      exact .inl ⟨he.1,he.2,(Option.some.inj hb).symm⟩
    · exact .inr hb
  refine { I with
    ballot_cand := ?_, ballot_coh := ?_, ballot_seen := ?_, ballot_log := ?_, doomed := ?_,
    won := I.won.ext hx, com_ok := fun t ht => (I.com_ok t ht).ext hx }
  · intro q' t' b hb
    rcases hcases hb with ⟨rfl,rfl,rfl⟩ | hb
    · exact ⟨l,hc,hu⟩
    · exact I.ballot_cand _ _ _ hb
  · intro q' t' b hb
    rcases hcases hb with ⟨rfl,rfl,rfl⟩ | hb
    · exact I.log_coh _
    · exact I.ballot_coh _ _ _ hb
  · intro q' t' b hb s hs
    rcases hcases hb with ⟨rfl,rfl,rfl⟩ | hb
    · exact hs
    · exact I.ballot_seen _ _ _ hb s hs
  · intro q' t' b hb s hlt i hi hp
    rcases hcases hb with ⟨rfl,rfl,rfl⟩ | hb
    · exact I.ack_log _ s i hi hp
    · exact I.ballot_log _ _ _ hb s hlt i hi hp
  intro hs c' t' l' hl' e he hle
  obtain ⟨Q,hQ,hv⟩ := I.doomed hs c' t' l' hl' e he hle
  refine ⟨Q,hQ,fun v hvQ => ⟨?_,?_⟩⟩
  · rw [vote_ballot]
    split
    · simp
    · exact (hv v hvQ).1
  intro b hb
  rcases hcases hb with ⟨rfl,rfl,rfl⟩ | hb
  · -- A voter of the doomed quorum has already voted in the entry's term.
    rcases Nat.lt_or_eq_of_le hle with hlt | heq
    · exact absurd (hlater _ hlt) (hv _ hvQ).1
    · exact absurd (heq ▸ h) (hv _ hvQ).1
  · exact (hv v hvQ).2 b hb

theorem Ext.accept (H : History ν ε) (q : ν) (l : List ε) : Ext H (H.accept q l) where
  lead _ := List.prefix_rfl
  elections := List.suffix_rfl
  cand _ _ _ hc := hc
  ballot _ _ _ hb := hb
  ack _ _ := le_rfl
  com _ := le_rfl

theorem Inv.accept (I : H.Inv qs τ) {q : ν} {t : Nat} {l : List ε} (hl : l <+: H.lead t)
    (hkeep : ∀ p, p <+: H.log q → p <+: H.lead t → p <+: l) (ht : t ∈ terms H.elections)
    (hack : ∀ s, t < s → H.ack q s = 0) : (H.accept q l).Inv qs τ := by
  have hx := Ext.accept H q l
  refine { I with
    log_coh := ?_, ack_log := ?_, won := I.won.ext hx,
    com_ok := fun t ht => (I.com_ok t ht).ext hx }
  · intro q'
    by_cases hq : q' = q
    · subst hq
      rw [accept_log_self]
      exact (I.lead_coh t).of_isPrefix hl
    · rw [accept_log_ne _ _ _ hq]
      exact I.log_coh q'
  intro q' s i hi hp
  have hold := I.ack_log q' s i hi hp
  by_cases hq : q' = q
  swap
  · rw [accept_log_ne _ _ _ hq]
    exact hold
  subst hq
  rw [accept_log_self]
  apply hkeep _ hold
  rcases Nat.lt_trichotomy s t with hst | rfl | hst
  · exact hp t ht hst
  · exact List.take_prefix _ _
  · rw [accept_ack,hack s hst] at hi
    simp [Nat.le_zero.mp hi]

theorem Ext.acknowledge (H : History ν ε) (q : ν) (t n : Nat) : Ext H (H.acknowledge q t n) where
  lead _ := List.prefix_rfl
  elections := List.suffix_rfl
  cand _ _ _ hc := hc
  ballot _ _ _ hb := hb
  com _ := le_rfl
  ack q' t' := by
    rw [acknowledge_ack]
    split
    · rename_i h
      rw [h.1,h.2]
      exact le_max_left _ _
    · exact le_rfl

theorem Inv.acknowledge (I : H.Inv qs τ) {q : ν} {t n : Nat} (hn : n ≤ (H.lead t).length)
    (hl : (H.lead t).take n <+: H.log q) (hb : ∀ s, t < s → H.ballot q s = none) :
    (H.acknowledge q t n).Inv qs τ := by
  have hx := Ext.acknowledge H q t n
  have hcases : ∀ {q' t' i}, i ≤ (H.acknowledge q t n).ack q' t' →
      i ≤ H.ack q' t' ∨ (q' = q ∧ t' = t ∧ i ≤ n) := by
    intro q' t' i hi
    rw [acknowledge_ack] at hi
    split at hi
    · rename_i h
      obtain ⟨rfl,rfl⟩ := h
      rcases le_max_iff.mp hi with h | h
      · exact .inl h
      · exact .inr ⟨rfl,rfl,h⟩
    · exact .inl hi
  refine { I with
    ack_le := ?_, ack_log := ?_, ballot_log := ?_, won := I.won.ext hx,
    com_ok := fun t ht => (I.com_ok t ht).ext hx }
  · intro q' t'
    rcases hcases (le_refl ((H.acknowledge q t n).ack q' t')) with h | ⟨rfl,rfl,h⟩
    · exact h.trans (I.ack_le _ _)
    · exact h.trans hn
  · intro q' s i hi hp
    rcases hcases hi with h | ⟨rfl,rfl,h⟩
    · exact I.ack_log q' s i h hp
    · exact (List.take_prefix_take_left h).trans hl
  intro q' s b hsb s' hlt i hi hp
  rcases hcases hi with h | ⟨rfl,rfl,_⟩
  · exact I.ballot_log q' s b hsb s' hlt i h hp
  · rw [acknowledge_ballot,hb s hlt] at hsb
    cases hsb

theorem Ext.write {c : ν} {t : Nat} (es : List ε) (els : List (Election ν))
    (h : H.lead t <+: H.log c) : Ext H (H.write c t es els) where
  elections := List.suffix_append _ _
  cand _ _ _ hc := hc
  ballot _ _ _ hb := hb
  ack _ _ := le_rfl
  com _ := le_rfl
  lead t' := by
    by_cases ht : t' = t
    · subst ht
      rw [write_lead_self]
      exact h.trans (List.prefix_append _ _)
    · rw [write_lead_ne _ _ _ _ _ ht]

omit [DecidableEq ν] in
private theorem prefix_back (I : H.Inv qs τ) {H' : History ν ε} (hx : Ext H H') {s t i : Nat}
    (ht : t ∈ terms H.elections) (hst : s < t)
    (hp : (H.lead s).take i <+: H'.lead t) : (H.lead s).take i <+: H.lead t := by
  rcases List.prefix_or_prefix_of_prefix hp (hx.lead t) with h | h
  · exact h
  obtain ⟨e,he,het⟩ := I.won.own ht
  have := I.lead_le s e ((List.take_subset _ _) (h.subset he))
  omega

/-- Side conditions of a write: the new entries carry term `t`, the old log has no later
term, the leader's log so far is part of it, and `t` is elected, now or before. -/
structure Writable (qs : Quorums ν) (τ : ε → Nat) (H : History ν ε) (c : ν) (t : Nat)
    (es : List ε) (els : List (Election ν)) : Prop where
  pos : 0 < t
  entries : ∀ e ∈ es, τ e = t
  log_le : ∀ e ∈ H.log c, τ e ≤ t
  lead_log : H.lead t <+: H.log c
  elected : ¬ qs.Solo → t ∈ terms (els ++ H.elections)
  won : (H.write c t es els).Won qs τ (els ++ H.elections)

theorem Writable.coherent {c : ν} {t : Nat} {es : List ε} {els : List (Election ν)} (h : Writable qs τ H c t es els)
    (I : H.Inv qs τ) : (H.write c t es els).Coherent τ (H.log c ++ es) := by
  have hx : Ext H (H.write c t es els) := Ext.write es els h.lead_log
  intro p e hp
  rcases List.prefix_or_prefix_of_prefix hp (List.prefix_append (H.log c) es) with h' | ⟨r,hpr⟩
  · exact (I.log_coh c p e h').trans (hx.lead _)
  have hr : r <+: es := (List.prefix_append_right_inj _).mp (hpr ▸ hp)
  rcases List.eq_nil_or_concat r with rfl | ⟨r,e',rfl⟩
  · rw [List.append_nil] at hpr
    exact (I.log_coh c p e (by rw [← hpr])).trans (hx.lead _)
  have hee : e = e' := by simpa using congrArg List.getLast? hpr.symm
  have het : τ e = t := h.entries e (hr.subset (by simp [hee]))
  rw [het,write_lead_self]
  exact hp

theorem Writable.sorted {c : ν} {t : Nat} {es : List ε} {els : List (Election ν)} (h : Writable qs τ H c t es els)
    (I : H.Inv qs τ) : (H.log c ++ es).Pairwise (fun a b => τ a ≤ τ b) := by
  rw [List.pairwise_append]
  refine ⟨(I.log_coh c).sorted I,?_,?_⟩
  · exact List.pairwise_of_forall_mem_list fun a ha b hb => by
      rw [h.entries a ha,h.entries b hb]
  intro a ha b hb
  rw [h.entries b hb]
  exact h.log_le a ha

theorem Inv.write (I : H.Inv qs τ) {c : ν} {t : Nat} {es : List ε} {els : List (Election ν)}
    (h : Writable qs τ H c t es els) : (H.write c t es els).Inv qs τ := by
  have hx : Ext H (H.write c t es els) := Ext.write es els h.lead_log
  have hle : ∀ e ∈ H.log c ++ es, τ e ≤ t := by
    intro e he
    rcases List.mem_append.mp he with he | he
    · exact h.log_le e he
    · exact (h.entries e he).le
  have htake : ∀ q s i, i ≤ H.ack q s → ((H.write c t es els).lead s).take i = (H.lead s).take i :=
    fun q s i hi => hx.take_lead (hi.trans (I.ack_le q s))
  refine
    { lead_zero := ?_
      lead_coh := write_lead_forall _ _ _ _ (P := fun _ l => (H.write c t es els).Coherent τ l) (h.coherent I) fun s _ =>
        hx.coherent (I.lead_coh s)
      lead_le := write_lead_forall _ _ _ _ (P := fun s l => ∀ e ∈ l, τ e ≤ s) hle fun s _ => I.lead_le s
      lead_sorted := write_lead_forall _ _ _ _ (P := fun _ l => l.Pairwise _) (h.sorted I) fun s _ => I.lead_sorted s
      lead_elected := fun hsolo => write_lead_forall _ _ _ _ (P := fun s l => l ≠ [] → s ∈ _)
        (fun _ => h.elected hsolo) fun s _ hs => hx.mem_terms (I.lead_elected hsolo s hs)
      log_coh := write_log_forall _ _ _ _ (P := fun _ l => (H.write c t es els).Coherent τ l) (h.coherent I) fun q _ =>
        hx.coherent (I.log_coh q)
      ack_le := fun q s => (I.ack_le q s).trans (hx.lead s).length_le
      ack_log := ?_, ballot_cand := I.ballot_cand,
      ballot_coh := fun q s b hb => hx.coherent (I.ballot_coh q s b hb),
      ballot_seen := fun q s b hb s' hs' => hx.mem_terms (I.ballot_seen q s b hb s' hs'),
      ballot_log := ?_, doomed := I.doomed, won := h.won,
      com_ok := fun t ht => (I.com_ok t ht).ext hx }
  · rw [write_lead_ne _ _ _ _ _ h.pos.ne]
    exact I.lead_zero
  · intro q s i hi hp
    rw [htake q s i hi] at hp ⊢
    have hlog : H.log q <+: (H.write c t es els).log q :=
      write_log_forall _ _ _ _ (P := fun q l => H.log q <+: l) (List.prefix_append _ _) (fun q _ => List.prefix_rfl) q
    refine (I.ack_log q s i hi fun s' hs' hlt => ?_).trans hlog
    exact prefix_back I hx hs' hlt (hp s' (hx.mem_terms hs') hlt)
  intro q s b hb s' hlt i hi hp
  rw [htake q s' i hi] at hp ⊢
  refine I.ballot_log q s b hb s' hlt i hi fun u hu hlt' => ?_
  exact prefix_back I hx (I.ballot_seen q s b hb u hu) hlt' (hp u hu hlt')

end History
end Parallax.Consensus
