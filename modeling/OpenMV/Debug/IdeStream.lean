import OpenMV.Schemes.Bits
import OpenMV.Vision.Image

/-! Frames in the terminal stream | scheme:regrouping | source:src/src/openmv/omv/framebuffer.c

    `fb_encode_for_ide` prints a JPEG image between two bytes 0xFE, with six bits of it in each byte:

        bytes   0 1 2 3 4 5 6 7 │ 0 1 2 3 4 5 6 7 │ 0 1 2 3 4 5 6 7
        groups  0 1 2 3 4 5 │ 0 1 2 3 4 5 │ 0 1 2 3 4 5 │ 0 1 2 3 4 5

    One or two bytes that are left are filled up with zeros. -/

namespace OpenMV.Debug
open Schemes Vision

/-- `fb_encode_for_ide_new_size`, in `int`. -/
def fbEncodeForIdeNewSize (bpp : ℕ) : ℤ := int32 ((int32 (int32 (bpp * 8) + 5)).tdiv 6 + 2)

/-- `x |= img->data[i + k] << (8 * k)` for the first `n` of `k = 0, 1, 2`. -/
def gather (data : List UInt8) (i : ℕ) : ℕ → ℕ
  | 0 => 0
  | n + 1 => gather data i n ||| (data.getD (i + n) 0).toNat <<< (8 * n)

/-- `*ptr++ = 0x80 | ((x >> (6 * k)) & 0x3F)` for the first `m` of `k = 0, 1, 2, 3`. -/
def sextets (x m : ℕ) : List UInt8 := (List.range m).map fun k => UInt8.ofNat (0x80 ||| ((x >>> (6 * k)) &&& 0x3F))

/-- What is between the two marks. -/
def ideBody (data : List UInt8) : List UInt8 :=
  ((List.range (data.length / 3)).flatMap fun i => sextets (gather data (i * 3) 3) 4) ++
    (if data.length % 3 = 2 then sextets (gather data (data.length - 2) 2) 3 else []) ++
    (if data.length % 3 = 1 then sextets (gather data (data.length - 1) 1) 2 else [])

/-- `fb_encode_for_ide`. -/
def fbEncodeForIde (data : List UInt8) : List UInt8 := [0xFE] ++ ideBody data ++ [0xFE]

/-- The payloads of the printed bytes. -/
def payload (sent : List UInt8) : List Bool := sent.flatMap fun b => bits 6 b.toNat

/-- The image as bits. -/
def byteBits (data : List UInt8) : List Bool := data.flatMap fun b => bits 8 b.toNat

@[simp] theorem payload_append (a b : List UInt8) : payload (a ++ b) = payload a ++ payload b := List.flatMap_append

@[simp] theorem byteBits_append (a b : List UInt8) : byteBits (a ++ b) = byteBits a ++ byteBits b :=
  List.flatMap_append

/-! ### One group -/

theorem or_0x80 : ∀ z < 64, 0x80 ||| z = 128 + z := by decide

/-- A printed byte is 0x80 and six bits. -/
theorem sextet_toNat (y : ℕ) : (UInt8.ofNat (0x80 ||| (y &&& 0x3F))).toNat = 128 + y % 64 := by
  have hand : y &&& 0x3F = y % 64 := Nat.and_two_pow_sub_one_eq_mod y 6
  have hlt : y % 64 < 64 := Nat.mod_lt y (by decide)
  rw [hand, or_0x80 _ hlt, UInt8.toNat_ofNat', Nat.mod_eq_of_lt (by omega)]

theorem sextets_range {x m : ℕ} : ∀ b ∈ sextets x m, 0x80 ≤ b.toNat ∧ b.toNat ≤ 0xBF := by
  intro b hb
  obtain ⟨k, -, rfl⟩ := List.mem_map.mp hb
  rw [sextet_toNat]
  omega

@[simp] theorem length_sextets (x m : ℕ) : (sextets x m).length = m := by simp [sextets]

theorem bits_sextet (y : ℕ) : bits 6 (128 + y % 64) = bits 6 y := by
  have hadd : 128 + y % 64 = 2 ^ 6 * 2 + y % 2 ^ 6 := rfl
  refine List.map_congr_left fun i hi => ?_
  rw [List.mem_range] at hi
  rw [hadd, Nat.testBit_two_pow_mul_add 2 (Nat.mod_lt y (by decide)), if_pos hi, Nat.testBit_mod_two_pow]
  simp [hi]

theorem payload_sextets (x m : ℕ) : payload (sextets x m) = bits (6 * m) x := by
  rw [← bits_flatMap, payload, sextets, List.flatMap_map]
  simp only [sextet_toNat, bits_sextet]

theorem gather_lt (data : List UInt8) (i : ℕ) : ∀ n, gather data i n < 2 ^ (8 * n)
  | 0 => by simp [gather]
  | n + 1 => by
      have hpow : 2 ^ (8 * n) ≤ 2 ^ (8 * (n + 1)) := Nat.pow_le_pow_right (by decide) (by omega)
      have hbyte : (data.getD (i + n) 0).toNat < 2 ^ 8 := UInt8.toNat_lt _
      refine Nat.or_lt_two_pow ((gather_lt data i n).trans_le hpow) ?_
      rw [Nat.shiftLeft_eq, Nat.mul_succ, Nat.pow_add, Nat.mul_comm]
      exact Nat.mul_lt_mul_of_pos_left hbyte (Nat.two_pow_pos _)

theorem bits_gather (data : List UInt8) (i : ℕ) : ∀ n, i + n ≤ data.length →
    bits (8 * n) (gather data i n) = byteBits ((data.drop i).take n)
  | 0, _ => by simp [bits, byteBits]
  | n + 1, h => by
      have hget : (data.drop i)[n]? = some (data.getD (i + n) 0) := by
        rw [List.getElem?_drop, List.getD_eq_getElem?_getD, List.getElem?_eq_getElem (by omega), Option.getD_some]
      rw [gather, Nat.mul_succ, bits_or_shiftLeft (gather_lt data i n), bits_gather data i n (by omega),
        List.take_add_one, hget, byteBits_append]
      simp [byteBits]

/-- `n` bytes go into `m` groups, with zeros at the end. -/
theorem payload_group {data : List UInt8} {i n m k : ℕ} (hin : i + n ≤ data.length) (hm : 6 * m = 8 * n + k) :
    payload (sextets (gather data i n) m) = byteBits ((data.drop i).take n) ++ List.replicate k false := by
  rw [payload_sextets, hm, bits_of_lt (gather_lt data i n), bits_gather data i n hin]

/-! ### The whole image -/

theorem payload_loop {data : List UInt8} : ∀ g, g * 3 ≤ data.length →
    payload ((List.range g).flatMap fun i => sextets (gather data (i * 3) 3) 4) = byteBits (data.take (g * 3))
  | 0, _ => by simp [payload, byteBits]
  | g + 1, h => by
      rw [List.range_succ, List.flatMap_append, payload_append, payload_loop g (by omega), Nat.succ_mul,
        List.take_add, byteBits_append]
      simp [payload_group (show g * 3 + 3 ≤ data.length by omega) (show 6 * 4 = 8 * 3 + 0 by rfl)]

theorem payload_ideBody (data : List UInt8) :
    ∃ k < 8, payload (ideBody data) = byteBits data ++ List.replicate k false := by
  have hsplit : byteBits data = byteBits (data.take (data.length / 3 * 3))
      ++ byteBits (data.drop (data.length / 3 * 3)) := by
    rw [← byteBits_append, List.take_append_drop]
  have hloop := payload_loop (data.length / 3) (Nat.div_mul_le_self _ _)
  have hdiv := Nat.div_add_mod' data.length 3
  have hrest : ∀ n, data.length % 3 = n → (data.drop (data.length / 3 * 3)).take n = data.drop (data.length / 3 * 3) :=
    fun n hn => List.take_of_length_le (by rw [List.length_drop]; omega)
  rw [ideBody, payload_append, payload_append, hloop, hsplit]
  have hmod : data.length % 3 = 0 ∨ data.length % 3 = 1 ∨ data.length % 3 = 2 := by omega
  rcases hmod with hn | hn | hn
  · refine ⟨0, by decide, ?_⟩
    have hnil : data.drop (data.length / 3 * 3) = [] := List.drop_eq_nil_of_le (by omega)
    simp [hn, hnil, payload, byteBits]
  · refine ⟨4, by decide, ?_⟩
    have hstart : data.length - 1 = data.length / 3 * 3 := by omega
    rw [if_neg (by omega), if_pos hn, payload_group (by omega) (show 6 * 2 = 8 * 1 + 4 by rfl), hstart, hrest 1 hn]
    simp [payload]
  · refine ⟨2, by decide, ?_⟩
    have hstart : data.length - 2 = data.length / 3 * 3 := by omega
    rw [if_pos hn, if_neg (by omega), payload_group (by omega) (show 6 * 3 = 8 * 2 + 2 by rfl), hstart, hrest 2 hn]
    simp [payload]

theorem length_ideBody (data : List UInt8) : (ideBody data).length = (data.length * 8 + 5) / 6 := by
  have hdiv := Nat.div_add_mod data.length 3
  simp only [ideBody, List.length_append, List.length_flatMap, length_sextets, List.map_const', List.sum_replicate_nat,
    List.length_range]
  split_ifs <;> simp <;> omega

theorem ideBody_range {data : List UInt8} : ∀ b ∈ ideBody data, 0x80 ≤ b.toNat ∧ b.toNat ≤ 0xBF := by
  intro b hb
  simp only [ideBody, List.mem_append, List.mem_flatMap] at hb
  rcases hb with (⟨i, -, hb⟩ | hb) | hb
  · exact sextets_range b hb
  · split_ifs at hb
    · exact sextets_range b hb
    · simp at hb
  · split_ifs at hb
    · exact sextets_range b hb
    · simp at hb

/-- The number of groups gives the number of bytes back, as fewer than eight bits are added. -/
theorem ideBody_injective : Function.Injective ideBody := by
  intro d d' h
  obtain ⟨k, hk, hd⟩ := payload_ideBody d
  obtain ⟨k', hk', hd'⟩ := payload_ideBody d'
  have hbits : byteBits d ++ List.replicate k false = byteBits d' ++ List.replicate k' false := by
    rw [← hd, ← hd', h]
  have hlen : ∀ d : List UInt8, (byteBits d).length = 8 * d.length := fun d => by
    simp [byteBits, List.length_flatMap, Nat.mul_comm, List.map_const']
  have heq := congrArg List.length hbits
  simp only [List.length_append, hlen, List.length_replicate] at heq
  obtain ⟨hbytes, -⟩ := List.append_inj hbits (by rw [hlen, hlen]; omega)
  have hnat : d.map UInt8.toNat = d'.map UInt8.toNat := by
    refine flatMap_bits_injective (n := 8) (by decide) ?_ ?_ ?_
    · exact List.forall_mem_map.mpr fun b _ => UInt8.toNat_lt b
    · exact List.forall_mem_map.mpr fun b _ => UInt8.toNat_lt b
    · simpa [byteBits, List.flatMap_map] using hbytes
  exact List.map_inj_right (fun a b hab => UInt8.toNat_inj.mp hab) |>.mp hnat

theorem newSize_eq {bpp : ℕ} (h : bpp * 8 + 5 < 2147483648) : fbEncodeForIdeNewSize bpp = (bpp * 8 + 5) / 6 + 2 := by
  have hsum : int32 (int32 (bpp * 8) + 5) = bpp * 8 + 5 := by
    unfold int32
    omega
  rw [fbEncodeForIdeNewSize, hsum, Int.tdiv_eq_ediv_of_nonneg (by omega)]
  unfold int32
  omega

/-- The frame has the size that is asked for, the marks stand at its ends only, and the image can be read back:
    the payloads are its bits and fewer than eight zeros, and no two images are printed alike. -/
theorem fbEncodeForIde_decodable :
    (∀ d : List UInt8, (fbEncodeForIde d).length = (d.length * 8 + 5) / 6 + 2 ∧
      (d.length * 8 + 5 < 2147483648 → ((fbEncodeForIde d).length : ℤ) = fbEncodeForIdeNewSize d.length) ∧
      ∃ body : List UInt8, fbEncodeForIde d = [0xFE] ++ body ++ [0xFE] ∧
        (∀ b ∈ body, 0x80 ≤ b.toNat ∧ b.toNat ≤ 0xBF) ∧
        ∃ k < 8, payload body = byteBits d ++ List.replicate k false) ∧
    Function.Injective fbEncodeForIde := by
  refine ⟨fun d => ?_, fun d d' h => ?_⟩
  · have hlen : (fbEncodeForIde d).length = (d.length * 8 + 5) / 6 + 2 := by
      simp [fbEncodeForIde, length_ideBody]
    refine ⟨hlen, fun h => ?_, ideBody d, rfl, ideBody_range, payload_ideBody d⟩
    rw [hlen, newSize_eq h]
    simp
  · simp only [fbEncodeForIde, List.append_cancel_left_eq, List.append_cancel_right_eq] at h
    exact ideBody_injective h

/-- An image of four bytes. -/
theorem fbEncodeForIde_four_bytes :
    ((fbEncodeForIde [0xFF, 0xD8, 0xFF, 0xD9]).length : ℤ) = fbEncodeForIdeNewSize 4 :=
  (fbEncodeForIde_decodable.1 [0xFF, 0xD8, 0xFF, 0xD9]).2.1 (by decide)

end OpenMV.Debug
