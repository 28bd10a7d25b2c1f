import Parallax.Bytes.BigEndian
import Parallax.Bytes.Reader
import Parallax.Raft.Types

/-! kv/codec.go and kv/command.go: commands, their results and their encoding. A byte slice that
may be nil is an `Option`. -/
namespace Parallax.Kv
open BigEndian Reader

/-- `OpType` is a byte; an encoded command may hold any. -/
inductive OpType
  | invalid | get | put | delete | cas
  | other (b : {b : UInt8 // 5 ≤ b})
  deriving DecidableEq, Repr

structure Command where
  clientID : UInt64 := 0
  seq : UInt64 := 0
  op : OpType
  key : Bytes := []
  value : Option Bytes := none
  expect : Option Bytes := none
  deriving DecidableEq, Repr

/-- `Status` is a byte; a snapshot may hold any. -/
inductive Status
  | ok | notFound | casMismatch | staleSeq
  | other (b : {b : UInt8 // 4 ≤ b})
  deriving DecidableEq, Repr

structure Result where
  status : Status
  value : Option Bytes := none
  version : UInt64 := 0
  deriving DecidableEq, Repr

def OpType.toByte : OpType → UInt8
  | .invalid => 0
  | .get => 1
  | .put => 2
  | .delete => 3
  | .cas => 4
  | .other b => b.1

def OpType.ofByte (b : UInt8) : OpType :=
  if h : 5 ≤ b then .other ⟨b,h⟩
  else if b = 0 then .invalid else if b = 1 then .get else if b = 2 then .put else if b = 3 then .delete else .cas

def Status.toByte : Status → UInt8
  | .ok => 0
  | .notFound => 1
  | .casMismatch => 2
  | .staleSeq => 3
  | .other b => b.1

def Status.ofByte (b : UInt8) : Status :=
  if h : 4 ≤ b then .other ⟨b,h⟩
  else if b = 0 then .ok else if b = 1 then .notFound else if b = 2 then .casMismatch else .staleSeq

@[simp] theorem OpType.ofByte_toByte (op : OpType) : ofByte op.toByte = op := by
  cases op with
  | other b => simp [toByte,ofByte,b.2]
  | _ => rfl

@[simp] theorem Status.ofByte_toByte (st : Status) : ofByte st.toByte = st := by
  cases st with
  | other b => simp [toByte,ofByte,b.2]
  | _ => rfl

def flagAbsent : UInt8 := 0
def flagPresent : UInt8 := 1

def appendUint64 (buf : Bytes) (v : UInt64) : Bytes := buf ++ put 8 v.toNat

/-- The length is converted to 32 bits. -/
def appendUint32 (buf : Bytes) (n : Nat) : Bytes := buf ++ put 4 n

def appendString (buf s : Bytes) : Bytes := appendUint32 buf s.length ++ s

def appendOptBytes (buf : Bytes) : Option Bytes → Bytes
  | none => buf ++ [flagAbsent]
  | some b => appendUint32 (buf ++ [flagPresent]) b.length ++ b

def commandEncodingVersion : UInt8 := 1

def encodeCommand (c : Command) : Bytes :=
  let buf := [commandEncodingVersion]
  let buf := appendUint64 buf c.clientID
  let buf := appendUint64 buf c.seq
  let buf := buf ++ [c.op.toByte]
  let buf := appendString buf c.key
  let buf := appendOptBytes buf c.value
  appendOptBytes buf c.expect

inductive DecodeErr
  | noByte (off : Nat)
  | truncated (off want left : Nat)
  | presenceFlag (flag : UInt8) (off : Nat)
  | trailing (n : Nat)
  | commandVersion (version : UInt8)
  | invalidOp (op : UInt8)
  | snapshotVersion (version : UInt8)
  | sessionCount (n : UInt64)
  | keyCount (n : UInt64)
  deriving DecidableEq, Repr

abbrev Decoder := Reader DecodeErr

namespace Decoder

def byte : Decoder UInt8 := fun buf off =>
  if buf.length - off < 1 then .error (.noByte off) else .ok (buf.getD off 0,off + 1)

/-- `n` bytes, or the error that names how many are left. -/
def bytesN (n : Nat) : Decoder Bytes := fun buf off =>
  if buf.length - off < n then .error (.truncated off n (buf.length - off))
  else .ok ((buf.drop off).take n,off + n)

def uint64 : Decoder UInt64 := do
  let b ← bytesN 8
  pure (UInt64.ofNat (get b))

def uint32 : Decoder Nat := do
  let b ← bytesN 4
  pure (get b)

def string : Decoder Bytes := do
  let n ← uint32
  bytesN n

def optBytes : Decoder (Option Bytes) := do
  let flag ← byte
  if flag = flagAbsent then pure none
  else if flag = flagPresent then
    let n ← uint32
    let b ← bytesN n
    pure (some b)
  else fail fun off => .presenceFlag flag (off - 1)

def finish : Decoder Unit := fun buf off =>
  if buf.length - off ≠ 0 then .error (.trailing (buf.length - off)) else .ok ((),off)

/-- Runs a decoder on a whole buffer. -/
def run {α : Type} (p : Decoder α) (data : Bytes) : Except DecodeErr α :=
  ((do let a ← p; finish; pure a : Decoder α) data 0).map (·.1)

end Decoder
open Decoder

def decodeCommandBody : Decoder Command := do
  let version ← byte
  if version ≠ commandEncodingVersion then fail fun _ => .commandVersion version
  else
    let clientID ← uint64
    let seq ← uint64
    let op ← byte
    if OpType.ofByte op ∈ [.get,.put,.delete,.cas] then
      let key ← string
      let value ← optBytes
      let expect ← optBytes
      pure { clientID, seq, op := .ofByte op, key, value, expect }
    else fail fun _ => .invalidOp op

def decodeCommand (data : Bytes) : Except DecodeErr Command := decodeCommandBody.run data

private theorem takes_bytesN (b : Bytes) : Takes (bytesN b.length) b b where
  whole front back := by
    rw [bytesN,if_neg (by simp only [List.length_append]; omega),List.drop_left,List.take_left]
  short front k hk := by
    refine ⟨_,if_pos ?_⟩
    rw [List.length_append,List.length_take]
    omega

theorem takes_byte (b : UInt8) : Takes byte [b] b where
  whole front back := by simp [byte]
  short front k hk := by
    obtain rfl : k = 0 := by simpa using hk
    exact ⟨_,if_pos (by simp)⟩

theorem takes_uint64 (v : UInt64) : Takes uint64 (put 8 v.toNat) v := by
  have h := (takes_bytesN (put 8 v.toNat)).map fun b => UInt64.ofNat (get b)
  rw [length_put] at h
  rwa [get_put (by have := v.toNat_lt; norm_num; omega),UInt64.ofNat_toNat] at h

private theorem takes_uint32 {n : Nat} (hn : n < 2 ^ 32) : Takes uint32 (put 4 n) n := by
  have h := (takes_bytesN (put 4 n)).map get
  rw [length_put] at h
  rwa [get_put (by norm_num; omega)] at h

theorem takes_string {s : Bytes} (hs : s.length < 2 ^ 32) : Takes string (appendString [] s) s :=
  (takes_uint32 hs).andThen (takes_bytesN s)

/-- Shorter than 2^32 bytes, or nil. -/
def Short (b : Option Bytes) : Prop := (b.getD []).length < 2 ^ 32

instance (b : Option Bytes) : Decidable (Short b) := inferInstanceAs (Decidable (_ < _))

theorem takes_optBytes {b : Option Bytes} (hb : Short b) : Takes optBytes (appendOptBytes [] b) b := by
  unfold optBytes
  cases b with
  | none => exact (takes_byte flagAbsent).andThen (takes_pure none)
  | some s =>
    exact (takes_byte flagPresent).andThen ((takes_uint32 hb).andThen ((takes_bytesN s).map some))

theorem run_ok {α : Type} {p : Decoder α} {bs : Bytes} {a : α} (h : Takes p bs a) : p.run bs = .ok a := by
  have := h.whole [] []
  simp only [List.nil_append,List.append_nil,List.length_nil,Nat.zero_add] at this
  simp only [Decoder.run,bind_eq,this,Except.bind]
  simp [finish,Except.map,pure]

theorem run_take {α : Type} {p : Decoder α} {bs : Bytes} {a : α} (h : Takes p bs a) {k : Nat} (hk : k < bs.length) :
    ∃ e, p.run (bs.take k) = .error e := by
  obtain ⟨e,he⟩ := h.short [] k hk
  simp only [List.nil_append,List.length_nil] at he
  exact ⟨e,by simp only [Decoder.run,bind_eq,he]; rfl⟩

theorem run_append {α : Type} {p : Decoder α} {bs : Bytes} {a : α} (h : Takes p bs a) {extra : Bytes} (hx : extra ≠ []) :
    p.run (bs ++ extra) = .error (.trailing extra.length) := by
  have := h.whole [] extra
  simp only [List.nil_append,List.length_nil,Nat.zero_add] at this
  have hlen := List.length_pos_iff.mpr hx
  simp only [Decoder.run,bind_eq,this,Except.bind]
  simp only [finish,List.length_append,Nat.add_sub_cancel_left]
  rw [if_pos (by omega)]
  rfl

theorem appendOptBytes_eq (buf : Bytes) (b : Option Bytes) : appendOptBytes buf b = buf ++ appendOptBytes [] b := by
  cases b <;> simp [appendOptBytes,appendUint32]

theorem encodeCommand_eq (cmd : Command) : encodeCommand cmd = [commandEncodingVersion] ++ (put 8 cmd.clientID.toNat ++
    (put 8 cmd.seq.toNat ++ ([cmd.op.toByte] ++ (appendString [] cmd.key ++ (appendOptBytes [] cmd.value ++
      appendOptBytes [] cmd.expect))))) := by
  simp only [encodeCommand,appendUint64]
  rw [appendOptBytes_eq,appendOptBytes_eq (appendString _ _)]
  simp [appendString,appendUint32]

/-- What `EncodeCommand` writes for a command that `execute` knows. -/
theorem takes_command {cmd : Command} (hop : cmd.op ∈ [.get,.put,.delete,.cas]) (hk : cmd.key.length < 2 ^ 32)
    (hv : Short cmd.value) (he : Short cmd.expect) : Takes decodeCommandBody (encodeCommand cmd) cmd := by
  rw [encodeCommand_eq]
  obtain ⟨clientID,seq,op,key,value,expect⟩ := cmd
  refine (takes_byte commandEncodingVersion).andThen ?_
  rw [if_neg (by simp)]
  refine (takes_uint64 clientID).andThen ((takes_uint64 seq).andThen ((takes_byte op.toByte).andThen ?_))
  rw [OpType.ofByte_toByte,if_pos hop]
  exact (takes_string hk).andThen ((takes_optBytes hv).andThen ((takes_optBytes he).map fun e =>
    ({ clientID, seq, op, key, value, expect := e } : Command)))

private theorem bytesN_length {n : Nat} {buf : Bytes} {off : Nat} {r : Bytes × Nat} (h : bytesN n buf off = .ok r) :
    r.1.length = n := by
  unfold bytesN at h
  split at h
  · cases h
  obtain rfl := Except.ok.inj h
  rw [List.length_take,List.length_drop]
  omega

private theorem uint32_lt {buf : Bytes} {off : Nat} {r : Nat × Nat} (h : uint32 buf off = .ok r) : r.1 < 2 ^ 32 := by
  obtain ⟨b,off',hb,hr⟩ := bind_ok h
  obtain rfl := Except.ok.inj hr
  have := get_lt b
  rw [bytesN_length hb] at this
  norm_num at this ⊢
  exact this

theorem string_length {buf : Bytes} {off : Nat} {r : Bytes × Nat} (h : string buf off = .ok r) :
    r.1.length < 2 ^ 32 := by
  obtain ⟨n,off',hn,hr⟩ := bind_ok h
  rw [bytesN_length hr]
  exact uint32_lt hn

theorem optBytes_short {buf : Bytes} {off : Nat} {r : Option Bytes × Nat} (h : optBytes buf off = .ok r) :
    Short r.1 := by
  obtain ⟨flag,off',-,hr⟩ := bind_ok h
  split at hr
  · obtain rfl := Except.ok.inj hr
    exact Nat.two_pow_pos 32
  split at hr
  · obtain ⟨n,off₁,hn,hr⟩ := bind_ok hr
    obtain ⟨b,off₂,hb,hr⟩ := bind_ok hr
    obtain rfl := Except.ok.inj hr
    rw [Short,Option.getD_some,bytesN_length hb]
    exact uint32_lt hn
  · cases hr

theorem of_run {α : Type} {p : Decoder α} {data : Bytes} {a : α} (h : p.run data = .ok a) :
    ∃ off, p data 0 = .ok (a,off) ∧ data.length ≤ off := by
  unfold Decoder.run at h
  cases hrun : (do let a ← p; finish; pure a : Decoder α) data 0 with
  | error e =>
    rw [hrun] at h
    cases h
  | ok r =>
    rw [hrun] at h
    obtain ⟨a',off,hp,hrest⟩ := bind_ok hrun
    obtain ⟨_,off',hfin,hpure⟩ := bind_ok hrest
    obtain rfl := Except.ok.inj hpure
    obtain rfl : a' = a := Except.ok.inj h
    refine ⟨off,hp,?_⟩
    unfold finish at hfin
    split at hfin
    · cases hfin
    · omega

@[simp] theorem OpType.toByte_ofByte (b : UInt8) : (ofByte b).toByte = b := by
  unfold ofByte
  split_ifs with h5 h0 h1 h2 h3
  · rfl
  · exact h0.symm
  · exact h1.symm
  · exact h2.symm
  · exact h3.symm
  change 4 = b
  simp only [UInt8.le_iff_toNat_le,← UInt8.toNat_inj,UInt8.reduceToNat] at *
  omega

private theorem bytesN_spans {n : Nat} {buf b : Bytes} {off off' : Nat} (h : bytesN n buf off = .ok (b,off')) :
    Spans buf off b off' := by
  unfold bytesN at h
  split at h
  · cases h
  · obtain ⟨rfl,rfl⟩ := Prod.mk.inj (Except.ok.inj h)
    exact spans_take (by omega)

private theorem byte_spans {b : UInt8} {buf : Bytes} {off off' : Nat} (h : byte buf off = .ok (b,off')) :
    Spans buf off [b] off' := by
  unfold byte at h
  split at h
  · cases h
  rename_i hlt
  obtain ⟨rfl,rfl⟩ := Prod.mk.inj (Except.ok.inj h)
  have hoff : off < buf.length := by omega
  refine ⟨?_,rfl⟩
  rw [List.drop_eq_getElem_cons hoff,List.getD_eq_getElem?_getD,List.getElem?_eq_getElem hoff]
  rfl

private theorem uint64_spans {v : UInt64} {buf : Bytes} {off off' : Nat} (h : uint64 buf off = .ok (v,off')) :
    Spans buf off (put 8 v.toNat) off' := by
  obtain ⟨b,_,hb,hr⟩ := bind_ok h
  obtain ⟨rfl,rfl⟩ := Prod.mk.inj (Except.ok.inj hr)
  have hlen := bytesN_length hb
  have hlt := get_lt b
  rw [hlen] at hlt
  have hput := put_get b
  rw [hlen] at hput
  rw [UInt64.toNat_ofNat_of_lt' (by norm_num at hlt ⊢; exact hlt),hput]
  exact bytesN_spans hb

private theorem uint32_spans {n : Nat} {buf : Bytes} {off off' : Nat} (h : uint32 buf off = .ok (n,off')) :
    Spans buf off (put 4 n) off' := by
  obtain ⟨b,_,hb,hr⟩ := bind_ok h
  obtain ⟨rfl,rfl⟩ := Prod.mk.inj (Except.ok.inj hr)
  have hput := put_get b
  rw [bytesN_length hb] at hput
  rw [hput]
  exact bytesN_spans hb

private theorem string_spans {s : Bytes} {buf : Bytes} {off off' : Nat} (h : string buf off = .ok (s,off')) :
    Spans buf off (appendString [] s) off' := by
  obtain ⟨n,_,hn,hr⟩ := bind_ok h
  have hlen := bytesN_length hr
  have := (uint32_spans hn).append (bytesN_spans hr)
  rwa [← hlen] at this

private theorem optBytes_spans {b : Option Bytes} {buf : Bytes} {off off' : Nat} (h : optBytes buf off = .ok (b,off')) :
    Spans buf off (appendOptBytes [] b) off' := by
  obtain ⟨flag,_,hflag,hr⟩ := bind_ok h
  have hflag := byte_spans hflag
  split at hr
  · rename_i habsent
    obtain ⟨rfl,rfl⟩ := Prod.mk.inj (Except.ok.inj hr)
    rwa [habsent] at hflag
  split at hr
  · rename_i hpresent
    obtain ⟨n,_,hn,hr⟩ := bind_ok hr
    obtain ⟨s,_,hs,hr⟩ := bind_ok hr
    obtain ⟨rfl,rfl⟩ := Prod.mk.inj (Except.ok.inj hr)
    have := hflag.append ((uint32_spans hn).append (bytesN_spans hs))
    rwa [hpresent,← bytesN_length hs] at this
  · cases hr

/-- A known operation and fields that a 32-bit length can count. -/
structure Command.Encodable (cmd : Command) : Prop where
  op : cmd.op ∈ [.get,.put,.delete,.cas]
  key : cmd.key.length < 2 ^ 32
  value : Short cmd.value
  expect : Short cmd.expect

theorem decodeCommandBody_ok {buf : Bytes} {cmd : Command} {off off' : Nat}
    (h : decodeCommandBody buf off = .ok (cmd,off')) : cmd.Encodable ∧ Spans buf off (encodeCommand cmd) off' := by
  obtain ⟨version,_,hversion,hr⟩ := bind_ok h
  split at hr
  · cases hr
  rename_i hv
  obtain rfl := not_not.mp hv
  obtain ⟨clientID,_,hclient,hr⟩ := bind_ok hr
  obtain ⟨seq,_,hseq,hr⟩ := bind_ok hr
  obtain ⟨op,_,hbyte,hr⟩ := bind_ok hr
  split at hr
  · rename_i hop
    obtain ⟨key,_,hkey,hr⟩ := bind_ok hr
    obtain ⟨value,_,hvalue,hr⟩ := bind_ok hr
    obtain ⟨expect,_,hexpect,hr⟩ := bind_ok hr
    obtain ⟨rfl,rfl⟩ := Prod.mk.inj (Except.ok.inj hr)
    refine ⟨⟨hop,string_length hkey,optBytes_short hvalue,optBytes_short hexpect⟩,?_⟩
    rw [encodeCommand_eq,OpType.toByte_ofByte]
    exact (byte_spans hversion).append ((uint64_spans hclient).append ((uint64_spans hseq).append
      ((byte_spans hbyte).append ((string_spans hkey).append ((optBytes_spans hvalue).append
        (optBytes_spans hexpect))))))
  · cases hr

theorem decodeCommand_ok {data : Bytes} {cmd : Command} (h : decodeCommand data = .ok cmd) : cmd.Encodable := by
  obtain ⟨off,hbody,_⟩ := of_run h
  exact (decodeCommandBody_ok hbody).1

private theorem encode_decodeCommand {data : Bytes} {cmd : Command} (h : decodeCommand data = .ok cmd) :
    encodeCommand cmd = data := by
  obtain ⟨off,hbody,hend⟩ := of_run h
  have := (decodeCommandBody_ok hbody).2.here
  rw [List.drop_zero,List.drop_of_length_le hend,List.append_nil] at this
  exact this.symm

theorem decode_encodeCommand {cmd : Command} (h : cmd.Encodable) : decodeCommand (encodeCommand cmd) = .ok cmd :=
  run_ok (takes_command h.op h.key h.value h.expect)

/-- `EncodeCommand` and `DecodeCommand` are inverse to each other between the encodable commands and
the byte strings that decode; no two of these strings continue one another. -/
theorem command_codec_bijective :
    (∀ cmd : Command, cmd.Encodable → decodeCommand (encodeCommand cmd) = .ok cmd) ∧
    (∀ (data : Bytes) (cmd : Command), decodeCommand data = .ok cmd → cmd.Encodable ∧ encodeCommand cmd = data) ∧
    (∀ cmd cmd' : Command, cmd.Encodable → cmd'.Encodable → encodeCommand cmd = encodeCommand cmd' → cmd = cmd') ∧
    (∀ cmd : Command, cmd.Encodable → ∀ data, data <+: encodeCommand cmd → data ≠ encodeCommand cmd →
      ∃ e, decodeCommand data = .error e) ∧
    (∀ cmd : Command, cmd.Encodable → ∀ data, encodeCommand cmd <+: data → data ≠ encodeCommand cmd →
      ∃ e, decodeCommand data = .error e) := by
  refine ⟨fun cmd => decode_encodeCommand,fun data cmd h => ⟨decodeCommand_ok h,encode_decodeCommand h⟩,?_,?_,?_⟩
  · intro cmd cmd' h h' heq
    have := decode_encodeCommand h
    rw [heq,decode_encodeCommand h'] at this
    exact (Except.ok.inj this).symm
  · intro cmd h data hpre hne
    rw [List.prefix_iff_eq_take.mp hpre]
    refine run_take (takes_command h.op h.key h.value h.expect) (Nat.lt_of_le_of_ne hpre.length_le fun hlen => ?_)
    exact hne (hpre.eq_of_length hlen)
  rintro cmd h _ ⟨extra,rfl⟩ hne
  have hx : extra ≠ [] := by
    rintro rfl
    exact hne (List.append_nil _)
  exact ⟨_,run_append (takes_command h.op h.key h.value h.expect) hx⟩

end Parallax.Kv
