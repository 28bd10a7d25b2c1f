import Parallax.Disk.Replay

/-! `Open` on a directory whose segments hold whole records and at most a stub behind them, which
is what every crash leaves. -/
namespace Parallax.Disk
open Scan BigEndian

theorem listing_eq {files : List (Nat × Bytes)} (h : (files.map (·.1)).Pairwise (· < ·)) :
    listing files = files.map (·.1) :=
  List.Pairwise.insertionSort_eq (h.imp Nat.le_of_lt)

theorem readFile_of_nodup {files : List (Nat × Bytes)} (h : (files.map (·.1)).Nodup) {f : Nat × Bytes}
    (hf : f ∈ files) : readFile files f.1 = f.2 := by
  induction files with
  | nil => cases hf
  | cons g files ih =>
    rw [List.map_cons,List.nodup_cons] at h
    unfold readFile
    rcases List.mem_cons.mp hf with rfl | hf
    · simp
    have hne : g.1 ≠ f.1 := fun heq => h.1 (heq ▸ List.mem_map_of_mem hf)
    rw [List.find?_cons_of_neg (by simpa using hne)]
    exact ih h.2 hf

theorem readFile_of_mem {files : List (Nat × Bytes)} (h : (files.map (·.1)).Pairwise (· < ·)) {f : Nat × Bytes}
    (hf : f ∈ files) : readFile files f.1 = f.2 :=
  readFile_of_nodup (h.imp Nat.ne_of_lt) hf

/-- Editing one segment. -/
theorem edit_one {front back : List (Nat × Bytes)} {seq : Nat} {bs : Bytes} {d : Dir}
    (hd : d.segs = front ++ (seq,bs) :: back) (hf : seq ∉ front.map (·.1)) (hb : seq ∉ back.map (·.1)) (f : Bytes → Bytes) :
    d.edit seq f = { d with segs := front ++ (seq,f bs) :: back } := by
  have hsame : ∀ files : List (Nat × Bytes), seq ∉ files.map (·.1) →
      files.map (fun file => if file.1 = seq then (file.1,f file.2) else file) = files := by
    intro files hn
    rw [List.map_congr_left (g := id),List.map_id]
    intro file hfile
    exact if_neg fun heq : file.1 = seq => hn (heq ▸ List.mem_map_of_mem hfile)
  rw [Dir.edit,hd,List.map_append,hsame front hf,List.map_cons,hsame back hb]
  simp

theorem edit_last {front : List (Nat × Bytes)} {seq : Nat} {bs : Bytes} {d : Dir}
    (hd : d.segs = front ++ [(seq,bs)]) (hlt : ∀ n ∈ front.map (·.1), n < seq) (f : Bytes → Bytes) :
    d.edit seq f = { d with segs := front ++ [(seq,f bs)] } :=
  edit_one hd (fun hmem => Nat.lt_irrefl _ (hlt seq hmem)) (by simp) f

/-- Removals leave the files that they do not name. -/
theorem foldl_remove (d : Dir) (gone : List Nat) :
    (gone.map FileOp.remove).foldl Dir.perform d = { d with segs := d.segs.filter (·.1 ∉ gone) } := by
  induction gone generalizing d with
  | nil => simp
  | cons n gone ih =>
    rw [List.map_cons,List.foldl_cons,ih]
    simp only [Dir.perform,List.filter_filter,Dir.mk.injEq,and_true]
    refine List.filter_congr fun file _ => ?_
    simp [Bool.and_comm]

theorem Storage.removeSegments_eq (s : Storage) (seqs : List Nat) :
    s.removeSegments seqs =
      { s with dir := (seqs.map FileOp.remove).foldl Dir.perform s.dir, ops := s.ops ++ seqs.map .remove } := by
  induction seqs generalizing s with
  | nil => simp [Storage.removeSegments]
  | cons seq seqs ih =>
    have := ih (s.perform (.remove seq))
    simp only [Storage.removeSegments,List.foldl_cons] at this ⊢
    rw [this]
    simp [Storage.perform]

/-- The records of the earlier segments and of the last one, and a stub `t` behind them. -/
structure Laid (d : Dir) (files : List (Nat × List Record)) (seq : Nat) (last : List Record) (t : Bytes) : Prop where
  segs : d.segs = files.map (fun f => (f.1,bytes f.2)) ++ [(seq,bytes last ++ t)]
  asc : (files.map (·.1) ++ [seq]).Pairwise (· < ·)
  stub : Stub frame Fits t
  fits : ∀ r ∈ files.flatMap (·.2) ++ last, r.Fits

namespace Laid
variable {d : Dir} {files : List (Nat × List Record)} {seq : Nat} {last : List Record} {t : Bytes}

theorem names (h : Laid d files seq last t) : d.segs.map (·.1) = files.map (·.1) ++ [seq] := by
  rw [h.segs]
  simp

private theorem lt_seq (h : Laid d files seq last t) : ∀ n ∈ (files.map (fun f => (f.1,bytes f.2))).map (·.1), n < seq := by
  intro n hn
  rw [List.map_map] at hn
  exact (List.pairwise_append.mp h.asc).2.2 n hn seq (by simp)

theorem edit (h : Laid d files seq last t) (f : Bytes → Bytes) :
    (d.edit seq f) = { d with segs := files.map (fun f => (f.1,bytes f.2)) ++ [(seq,f (bytes last ++ t))] } :=
  edit_last h.segs h.lt_seq f

theorem append (h : Laid d files seq last []) {rs : List Record} (hrs : ∀ r ∈ rs, r.Fits) (k : Nat) :
    ∃ j t', Laid (d.perform (.append seq ((bytes rs).take k))) files seq (last ++ rs.take j) t' := by
  obtain ⟨j,t',-,ht',htake,-⟩ := bytes_take hrs k
  refine ⟨j,t',?_,h.asc,ht',?_⟩
  · rw [Dir.perform,h.edit,htake]
    simp
  intro r hr
  rw [← List.append_assoc] at hr
  rcases List.mem_append.mp hr with hr | hr
  · exact h.fits r hr
  · exact hrs r (List.mem_of_mem_take hr)

/-- A whole append to clean segments. -/
theorem append_all (h : Laid d files seq last []) {rs : List Record} (hrs : ∀ r ∈ rs, r.Fits) :
    Laid (d.perform (.append seq (bytes rs))) files seq (last ++ rs) [] := by
  refine ⟨?_,h.asc,.nil,?_⟩
  · rw [Dir.perform,h.edit]
    simp
  intro r hr
  rw [← List.append_assoc] at hr
  rcases List.mem_append.mp hr with hr | hr
  · exact h.fits r hr
  · exact hrs r hr

theorem create (h : Laid d files seq last []) :
    Laid (d.perform (.create (seq + 1))) (files ++ [(seq,last)]) (seq + 1) [] [] := by
  have hnew : seq + 1 ∉ d.segs.map (·.1) := by
    rw [h.names]
    intro hmem
    rcases List.mem_append.mp hmem with hmem | hmem
    · have := (List.pairwise_append.mp h.asc).2.2 _ hmem seq (by simp)
      omega
    · simp at hmem
  refine ⟨?_,?_,.nil,?_⟩
  · rw [Dir.perform,if_neg hnew,h.segs]
    simp
  · rw [List.map_append,List.pairwise_append]
    refine ⟨h.asc,by simp,?_⟩
    intro n hn m hm
    obtain rfl : m = seq + 1 := by simpa using hm
    rcases List.mem_append.mp hn with hn | hn
    · have := (List.pairwise_append.mp h.asc).2.2 n hn seq (by simp)
      omega
    · have : n = seq := by simpa using hn
      omega
  · intro r hr
    exact h.fits r (by simpa using hr)

/-- Cutting off the stub. -/
theorem truncate (h : Laid d files seq last t) :
    Laid (d.perform (.truncate seq (bytes last).length)) files seq last [] := by
  refine ⟨?_,h.asc,.nil,h.fits⟩
  rw [Dir.perform,h.edit]
  simp

end Laid

theorem replaySegment_eq {s : Storage} {seq : Nat} {rs : List Record} {t : Bytes} {m : Mirror}
    (hread : readFile s.dir.segs seq = bytes rs ++ t) (ht : Stub frame Fits t) (hrs : ∀ r ∈ rs, r.Fits)
    (hm : feed Mirror.redo s.mirror rs = some m) :
    s.replaySegment seq =
      if t = [] then ({ s with mirror := m },false)
      else (({ s with mirror := m } : Storage).perform (.truncate seq (bytes rs).length),true) := by
  have hscan : scan readFrame Mirror.applyRecord (bytes rs ++ t) ((bytes rs ++ t).length + 1) 0 s.mirror =
      (m,if t = [] then none else some (bytes rs).length) := by
    have := frames.scan_stub (fits_payload hrs) ht [] ((bytes rs ++ t).length + 1) s.mirror m
      (by rw [List.length_append,bytes]; omega) (by rw [Mirror.feed_payload hrs,hm])
    rwa [List.nil_append,List.length_nil,Nat.zero_add] at this
  simp only [Storage.replaySegment,hread]
  rw [hscan]
  by_cases htn : t = []
  · rw [if_pos htn,if_pos htn]
  · rw [if_neg htn,if_neg htn]

theorem replaySegments_eq {files : List (Nat × List Record)} {seq : Nat} {last : List Record} {t : Bytes}
    (ht : Stub frame Fits t) : ∀ {s : Storage} {m : Mirror},
    (∀ f ∈ files, readFile s.dir.segs f.1 = bytes f.2) → readFile s.dir.segs seq = bytes last ++ t →
    (∀ r ∈ files.flatMap (·.2) ++ last, r.Fits) →
    feed Mirror.redo s.mirror (files.flatMap (·.2) ++ last) = some m →
    s.replaySegments (files.map (·.1) ++ [seq]) =
      (if t = [] then { s with mirror := m }
        else ({ s with mirror := m } : Storage).perform (.truncate seq (bytes last).length),files.map (·.1) ++ [seq]) := by
  induction files with
  | nil =>
    intro s m _ hread hfits hm
    simp only [List.flatMap_nil,List.nil_append,List.map_nil] at *
    rw [Storage.replaySegments,replaySegment_eq hread ht hfits hm]
    by_cases htn : t = []
    · simp [htn,Storage.replaySegments]
    · simp [htn,Storage.removeSegments]
  | cons f files ih =>
    intro s m hfiles hread hfits hm
    rw [List.flatMap_cons,List.append_assoc,feed_append] at hm
    obtain ⟨m₁,hm₁,hm⟩ := Option.bind_eq_some_iff.mp hm
    have hhead := replaySegment_eq (t := []) (by rw [hfiles f (by simp),List.append_nil]) .nil
      (fun r hr => hfits r (by simp [hr])) hm₁
    rw [if_pos rfl] at hhead
    rw [List.map_cons,List.cons_append,Storage.replaySegments,hhead]
    have := @ih { s with mirror := m₁ } m (fun g hg => hfiles g (by simp [hg])) hread
      (fun r hr => hfits r (by simp only [List.flatMap_cons,List.append_assoc]; exact List.mem_append_right _ hr)) hm
    simp only [this]

end Parallax.Disk
