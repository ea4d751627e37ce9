import SakuruBoot.Lib.BitStream
import SakuruBoot.Luks.Luks2Format

/-!
# `base64_decode` and RFC 4648

The decoder on its output buffer, with its 32-bit signed accumulator. The accumulator is never cleared and loses its
high bits; only its `bits` low ones are ever looked at again. `base64Loop_stream`: what has been put out, and those bits
behind it, are the bits of the characters so far. Hence `base64_returns`: an encoding comes back with or without its
padding, whatever else stands between its characters.
-/

namespace SakuruBoot
open CStr (Byte u32)
open Bytes BitStream
open Luks2Format (base64Char base64Encode)

/-! ## The decoder -/

/-- The loop of `base64_decode` at `dst[out]`; `int` has 32 bits and `>>` keeps the sign. -/
def base64LoopRun : List Byte → List Byte → Nat → BitVec 32 → Nat → List Byte × Nat
  | [], dst, out, _, _ => (dst, out)
  | c :: src, dst, out, buf, bits =>
    match b64Val c with
    | none => base64LoopRun src dst out buf bits
    | some v =>
      let buf := buf <<< 6 ||| BitVec.ofNat 32 v
      let bits := bits + 6
      if 8 ≤ bits then
        let bits := bits - 8
        base64LoopRun src (patch dst out [⟨(buf.sshiftRight bits).setWidth 8⟩]) (u32 (out + 1)) buf bits
      else base64LoopRun src dst out buf bits

/-- `base64_decode`: the buffer behind it, and the length returned. -/
def base64Run (src dst : List Byte) : List Byte × Nat := base64LoopRun src dst 0 0 0

theorem b64Val_lt {c : Byte} {v : Nat} (h : b64Val c = some v) : v < 64 := by
  unfold b64Val at h
  simp only [UInt8.le_iff_toNat_le] at h
  split_ifs at h with hupper hlower hdigit
  · obtain ⟨-, hle⟩ := hupper
    cases h
    exact Nat.lt_of_le_of_lt (Nat.sub_le_sub_right hle 65) (by decide)
  · obtain ⟨-, hle⟩ := hlower
    cases h
    exact Nat.lt_of_le_of_lt (Nat.add_le_add_right (Nat.sub_le_sub_right hle 97) 26) (by decide)
  · obtain ⟨-, hle⟩ := hdigit
    cases h
    exact Nat.lt_of_le_of_lt (Nat.add_le_add_right (Nat.sub_le_sub_right hle 48) 52) (by decide)
  · cases h
    decide
  · cases h
    decide

theorem toNat_shiftIn (buf : BitVec 32) {v : Nat} (hv : v < 64) :
    (buf <<< 6 ||| BitVec.ofNat 32 v).toNat = u32 (buf.toNat * 64 + v) := by
  have hshift : (buf <<< 6).toNat = 2 ^ 6 * (buf.toNat % 2 ^ 26) := by
    rw [BitVec.toNat_shiftLeft, Nat.shiftLeft_eq]
    omega
  have hval : (BitVec.ofNat 32 v).toNat = v := by
    rw [BitVec.toNat_ofNat]
    exact Nat.mod_eq_of_lt (by omega)
  rw [BitVec.toNat_or, hshift, hval, ← Nat.two_pow_add_eq_or_of_lt hv, u32]
  omega

theorem byte_of_shiftOut (buf : BitVec 32) {n : Nat} (hn : n < 8) :
    (⟨(buf.sshiftRight n).setWidth 8⟩ : Byte) = (buf.toNat / 2 ^ n).toUInt8 := by
  apply UInt8.toBitVec_inj.mp
  apply BitVec.eq_of_getLsbD_eq
  intro i hi
  have hbit : (Nat.toUInt8 (buf.toNat / 2 ^ n)).toBitVec.getLsbD i = buf.getLsbD (n + i) := by
    show (BitVec.ofNat 8 (buf.toNat / 2 ^ n)).getLsbD i = _
    rw [BitVec.getLsbD_ofNat, Nat.testBit_div_two_pow, decide_eq_true hi, Bool.true_and, BitVec.getLsbD, Nat.add_comm]
  rw [hbit, BitVec.getLsbD_setWidth, BitVec.getLsbD_sshiftRight, decide_eq_true hi, Bool.true_and, if_pos (by omega)]
  simp
  omega

/-- The run writes the bytes of the plain function. -/
theorem base64LoopRun_eq {src done rest : List Byte} {buf : BitVec 32} {n : Nat} (hn : n < 8)
    (hlen : done.length + src.length < 2 ^ 32) :
    base64LoopRun src (done ++ rest) done.length buf n =
      (done ++ base64Loop src buf.toNat n ++ rest.drop (base64Loop src buf.toNat n).length,
        done.length + (base64Loop src buf.toNat n).length) := by
  induction src generalizing done rest buf n with
  | nil => simp [base64LoopRun, base64Loop]
  | cons c src ih =>
    rw [List.length_cons] at hlen
    rw [base64LoopRun, base64Loop]
    cases hval : b64Val c with
    | none => exact ih hn (by omega)
    | some v =>
      dsimp only
      rw [← toNat_shiftIn buf (b64Val_lt hval)]
      generalize buf <<< 6 ||| BitVec.ofNat 32 v = buf'
      split_ifs with hfull
      · have hput : patch (done ++ rest) done.length [(buf'.toNat / 2 ^ (n + 6 - 8)).toUInt8] =
            (done ++ [(buf'.toNat / 2 ^ (n + 6 - 8)).toUInt8]) ++ rest.drop 1 := patch_at_end _ _ _
        have hnext : u32 (done.length + 1) = (done ++ [(buf'.toNat / 2 ^ (n + 6 - 8)).toUInt8]).length := by
          rw [List.length_append, List.length_singleton]
          exact Nat.mod_eq_of_lt (by omega)
        have hroom : (done ++ [(buf'.toNat / 2 ^ (n + 6 - 8)).toUInt8]).length + src.length < 2 ^ 32 := by
          rw [List.length_append, List.length_singleton]
          omega
        rw [byte_of_shiftOut buf' (by omega), hput, hnext, ih (by omega) hroom]
        simp
        omega
      · exact ih (by omega) (by omega)

theorem base64Run_eq {src : List Byte} (hlen : src.length < 2 ^ 32) (dst : List Byte) :
    base64Run src dst = (base64Decode src ++ dst.drop (base64Decode src).length, (base64Decode src).length) := by
  have h : base64Run src ([] ++ dst) = _ := @base64LoopRun_eq src [] dst 0 0 (by decide) (by simpa using hlen)
  have hzero : (0 : BitVec 32).toNat = 0 := rfl
  rw [hzero, List.nil_append, List.nil_append, List.length_nil, Nat.zero_add] at h
  exact h

/-! ## What it puts out -/

/-- The values of the characters of the alphabet. -/
def sextetValues (text : List Byte) : List Nat := text.filterMap b64Val

/-- The bits of the bytes put out, and fewer than eight pending ones, are those of the accumulator and of the text. -/
theorem base64Loop_stream (text : List Byte) (buf : Nat) {n : Nat} (hn : n < 8) :
    ∃ pending : List Bool, pending.length < 8 ∧
      ((base64Loop text buf n).map UInt8.toNat).flatMap (bits 8) ++ pending =
        bits n buf ++ (sextetValues text).flatMap (bits 6) := by
  induction text generalizing buf n with
  | nil => exact ⟨bits n buf, (length_bits n buf).trans_lt hn, (List.append_nil _).symm⟩
  | cons c text ih =>
    rw [base64Loop, sextetValues, List.filterMap_cons]
    cases hval : b64Val c with
    | none => exact ih buf hn
    | some v =>
      have hv : v < 2 ^ 6 := b64Val_lt hval
      have hshift : bits (n + 6) (u32 (buf * 64 + v)) = bits n buf ++ bits 6 v := by
        rw [u32, bits_mod (by omega), bits_append hv]
        rfl
      dsimp only
      rw [List.flatMap_cons, ← List.append_assoc, ← hshift]
      generalize u32 (buf * 64 + v) = buf'
      split_ifs with hfull
      · -- the upper eight of them are a byte
        obtain ⟨pending, hlen, hrest⟩ := ih buf' (n := n + 6 - 8) (by omega)
        have hwidth : n + 6 = 8 + (n + 6 - 8) := by omega
        have hbyte : bits (n + 6) buf' = bits 8 (buf' / 2 ^ (n + 6 - 8)).toUInt8.toNat ++ bits (n + 6 - 8) buf' := by
          have hcut : (buf' / 2 ^ (n + 6 - 8)).toUInt8.toNat = buf' / 2 ^ (n + 6 - 8) % 2 ^ 8 := UInt8.toNat_ofNat'
          rw [hcut, bits_mod (le_refl 8), ← bits_split, ← hwidth]
        refine ⟨pending, hlen, ?_⟩
        rw [List.map_cons, List.flatMap_cons, List.append_assoc, hrest, hbyte, List.append_assoc]
        rfl
      · exact ih buf' (by omega)

/-! ## The encoding -/

/-- The encoding of RFC 4648 without its padding. -/
def base64Unpadded (b : List Byte) : List Byte := (base64Encode b).filter (· != 61)

theorem b64Val_base64Char : ∀ v < 64, b64Val (base64Char v) = some v := by decide

theorem sextetValues_cons {v : Nat} (hv : v < 64) (text : List Byte) :
    sextetValues (base64Char v :: text) = v :: sextetValues text := by
  rw [sextetValues, List.filterMap_cons, b64Val_base64Char v hv]
  rfl

theorem bits_sextets {a b c d : Nat} (hb : b < 64) (hc : c < 64) (hd : d < 64) (rest : List Bool) :
    bits 6 a ++ (bits 6 b ++ (bits 6 c ++ (bits 6 d ++ rest))) = bits 24 (((a * 64 + b) * 64 + c) * 64 + d) ++ rest := by
  rw [bits_append_append hb, bits_append_append hc, bits_append_append hd]
  rfl

theorem bits_octets {x y z : Nat} (hy : y < 256) (hz : z < 256) (rest : List Bool) :
    bits 8 x ++ (bits 8 y ++ (bits 8 z ++ rest)) = bits 24 ((x * 256 + y) * 256 + z) ++ rest := by
  rw [bits_append_append hy, bits_append_append hz]
  rfl

/-- The characters of an encoding carry the bits of the bytes, filled up with zeros. -/
theorem base64Encode_stream (b : List Byte) : ∃ fill < 8, (sextetValues (base64Encode b)).flatMap (bits 6) =
    (b.map UInt8.toNat).flatMap (bits 8) ++ bits fill 0 := by
  fun_induction base64Encode b with
  | case1 x y z rest ih =>
    obtain ⟨fill, hfill, hrest⟩ := ih
    have hx := x.toNat_lt
    have hy := y.toNat_lt
    have hz := z.toNat_lt
    have hgroup : ((x.toNat / 4 * 64 + (x.toNat % 4 * 16 + y.toNat / 16)) * 64 + (y.toNat % 16 * 4 + z.toNat / 64)) * 64 +
        z.toNat % 64 = (x.toNat * 256 + y.toNat) * 256 + z.toNat := by omega
    refine ⟨fill, hfill, ?_⟩
    simp only [List.cons_append, List.nil_append, List.map_cons, List.flatMap_cons]
    rw [sextetValues_cons (by omega), sextetValues_cons (by omega), sextetValues_cons (by omega),
      sextetValues_cons (by omega)]
    simp only [List.flatMap_cons, hrest, List.append_assoc]
    rw [bits_sextets (by omega) (by omega) (by omega), bits_octets hy hz, hgroup]
  | case2 x y =>
    have hx := x.toNat_lt
    have hy := y.toNat_lt
    have hgroup : (x.toNat / 4 * 64 + (x.toNat % 4 * 16 + y.toNat / 16)) * 64 + y.toNat % 16 * 4 =
        (x.toNat * 256 + y.toNat) * 4 + 0 := by omega
    have hpad : sextetValues [61] = [] := rfl
    refine ⟨2, by decide, ?_⟩
    rw [sextetValues_cons (by omega), sextetValues_cons (by omega), sextetValues_cons (by omega), hpad]
    simp only [List.map_cons, List.map_nil, List.flatMap_cons, List.flatMap_nil, List.append_assoc, List.nil_append]
    rw [bits_append_append (by omega), bits_append_append (by omega), bits_append_append hy, bits_append (by decide)]
    exact (List.append_nil _).trans (congrArg (bits 18) hgroup)
  | case3 x =>
    have hx := x.toNat_lt
    have hgroup : x.toNat / 4 * 64 + x.toNat % 4 * 16 = x.toNat * 16 + 0 := by omega
    have hpad : sextetValues [61, 61] = [] := rfl
    refine ⟨4, by decide, ?_⟩
    rw [sextetValues_cons (by omega), sextetValues_cons (by omega), hpad]
    simp only [List.map_cons, List.map_nil, List.flatMap_cons, List.flatMap_nil, List.append_assoc, List.nil_append]
    rw [bits_append_append (by omega), bits_append (by decide)]
    exact (List.append_nil _).trans (congrArg (bits 12) hgroup)
  | case4 => exact ⟨0, by decide, rfl⟩

/-- `text` is `e` with bytes outside the alphabet put in anywhere. -/
inductive Interspersed : List Byte → List Byte → Prop
  | nil : Interspersed [] []
  | keep (c : Byte) {e text : List Byte} : Interspersed e text → Interspersed (c :: e) (c :: text)
  | skip {c : Byte} {e text : List Byte} : b64Val c = none → Interspersed e text → Interspersed e (c :: text)

theorem Interspersed.sextetValues_eq {e text : List Byte} (h : Interspersed e text) :
    sextetValues text = sextetValues e := by
  induction h with
  | nil => rfl
  | keep c _ ih =>
    rw [sextetValues, sextetValues, List.filterMap_cons, List.filterMap_cons, ← sextetValues, ih]
    rfl
  | skip hnone _ ih => rw [sextetValues, List.filterMap_cons, hnone, ← sextetValues, ih]

theorem sextetValues_unpadded (b : List Byte) : sextetValues (base64Unpadded b) = sextetValues (base64Encode b) := by
  rw [base64Unpadded, sextetValues, List.filterMap_filter, sextetValues]
  apply List.filterMap_congr
  intro c _
  by_cases hpad : c = 61
  · rw [hpad]
    rfl
  · simp [hpad]

theorem base64Decode_encoding {text b : List Byte} (h : sextetValues text = sextetValues (base64Encode b)) :
    base64Decode text = b := by
  obtain ⟨pending, hpending, hdecoded⟩ := base64Loop_stream text 0 (n := 0) (by decide)
  obtain ⟨fill, hfill, hencoded⟩ := base64Encode_stream b
  rw [h, hencoded] at hdecoded
  have hbytes : ∀ (l : List Byte), ∀ x ∈ l.map UInt8.toNat, x < 2 ^ 8 := by
    intro l x hx
    obtain ⟨c, -, rfl⟩ := List.mem_map.mp hx
    exact c.toNat_lt
  have hsame := digits_of_stream (hbytes _) (hbytes _) hpending ((length_bits fill 0).trans_lt hfill) hdecoded
  exact List.map_injective_iff.mpr (fun x y hxy => UInt8.toNat_inj.mp hxy) hsame

/-- Every encoding, with its padding or without, comes back, and nothing else is written. -/
theorem base64_returns {b e text : List Byte} (hencoding : e = base64Encode b ∨ e = base64Unpadded b)
    (htext : Interspersed e text) (hlen : text.length < 2 ^ 32) (dst : List Byte) :
    base64Run text dst = (b ++ dst.drop b.length, b.length) := by
  have hvalues : sextetValues text = sextetValues (base64Encode b) := by
    rw [htext.sextetValues_eq]
    rcases hencoding with rfl | rfl
    · rfl
    · exact sextetValues_unpadded b
  rw [base64Run_eq hlen, base64Decode_encoding hvalues]

/-- Two bytes without their padding, over two lines. -/
theorem base64_returns_lines : base64Run [43, 10, 47, 56] (List.replicate 64 0) =
    ([0xfb, 0xff] ++ (List.replicate 64 0).drop 2, 2) :=
  base64_returns (b := [0xfb, 0xff]) (e := [43, 47, 56]) (Or.inr (by decide))
    (.keep 43 (.skip (by decide) (.keep 47 (.keep 56 .nil)))) (by decide) (List.replicate 64 0)

end SakuruBoot
