import MyCppCode.Foundation.Machine

/-!
# Main — the class `EnDecrypt` of `encrypt_decrypt/main.cpp`

`encrypt` and `decrypt` reserve a buffer of twice the size of their argument, let OpenSSL write into it
in two parts, and cut it to the sum of the two lengths.

* `Evp` is what the class uses of OpenSSL, and `Evp.Lawful` what is relied on: the lengths that
  AES-256-CBC with padding writes, and that decryption inverts encryption;
* `crypt` is the body that the two functions share, with every write checked against the buffer and
  every `int` computation against the range of `int`;
* `crypt_ok` and `of_crypt_ok`: when it returns a text, and what is then known;
* `roundTrips_iff`: the lengths for which a text comes back.

Twice the length is too short for the final block of a text of less than eight bytes; and for the longest
texts the size of the buffer of `decrypt` is no longer an `int`.  The key is the bytes that OpenSSL reads
from the pointer `key`, taken to be the same in both calls.
-/

namespace MyCppCode
namespace EncryptDecrypt

open Foundation

/-! ## OpenSSL -/

/-- What an update call writes, and the length it reports: a decryption writes more, as it keeps the last
block back. -/
structure Output where
  written : List UInt8
  outl : Nat
  deriving DecidableEq, Repr

/-- One direction of the cipher: a context is initialised, updated once and finished.  `none` is a return
code other than 1. -/
structure Cipher where
  Ctx : Type
  init : List UInt8 → List UInt8 → Option Ctx
  update : Ctx → List UInt8 → Option (Output × Ctx)
  final : Ctx → Option (List UInt8)

/-- The functions `EVP_Encrypt...` and `EVP_Decrypt...` for `EVP_aes_256_cbc()`. -/
structure Evp where
  encryption : Cipher
  decryption : Cipher

/-- The three calls on `text` succeed, and this is what they put out. -/
def Cipher.Produces (c : Cipher) (key iv text : List UInt8) (first : Output) (last : List UInt8) : Prop :=
  ∃ ctx ctx', c.init key iv = some ctx ∧ c.update ctx text = some (first, ctx') ∧ c.final ctx' = some last

/-- What the class relies on, for inputs whose length is an `int`: the lengths written by an encryption;
that a decryption with the same key and iv succeeds and gives the text back; and the documented room that
a decryption needs, a block more than its input for the update and a block for the end. -/
structure Evp.Lawful (evp : Evp) (key iv : List UInt8) : Prop where
  encrypts : ∀ text, text.length < 2 ^ 31 →
    ∃ first last, evp.encryption.Produces key iv text first last ∧
      first.written.length = 16 * (text.length / 16) ∧ first.outl = 16 * (text.length / 16) ∧
      last.length = 16
  inverts : ∀ text first last, evp.encryption.Produces key iv text first last →
    (first.written ++ last).length < 2 ^ 31 →
    ∃ first' last', evp.decryption.Produces key iv (first.written ++ last) first' last' ∧
      first'.written.take first'.outl ++ last' = text ∧ first'.outl ≤ first'.written.length ∧
      first'.written.length ≤ (first.written ++ last).length + 16 ∧ last'.length ≤ 16

/-! ## The class -/

/-- How a call ends: with a text, or with a message on `std::cerr` and the empty string. -/
inductive Reply
  | text (bytes : List UInt8)
  | failed (message : String)
  deriving DecidableEq, Repr

/-- An `int` result, which has to be in range. -/
def checkInt (i : Int) : Except Halt Int :=
  if -2 ^ 31 ≤ i ∧ i < 2 ^ 31 then .ok i else .error .undefinedBehaviour

/-- `size << 1` on a `size_t`. -/
def shiftLeftOne (size : Nat) : Nat := (size * 2) % 2 ^ 64

/-- The texts printed when one of the three calls fails. -/
structure Messages where
  init : String
  update : String
  final : String

/-- The body of `encrypt` and `decrypt`. -/
def crypt (c : Cipher) (messages : Messages) (key iv text : List UInt8) : Except Halt Reply :=
  match c.init key iv with
  | none => .ok (.failed messages.init)
  | some ctx => do
      -- the buffer has twice the size of the argument, whatever a block takes
      let out ← resize ([] : List UInt8) (shiftLeftOne text.length) 0
      match c.update ctx (text.take (SizeT.toInt text.length).toNat) with
      | none => .ok (.failed messages.update)
      | some (first, ctx) => do
          let out ← writeAt out 0 first.written
          let out_len1 : Int := first.outl
          -- `out_len2` is set again by the final call; computing it must not overflow
          let _ ← checkInt (SizeT.toInt out.length - out_len1)
          match c.final ctx with
          | none => .ok (.failed messages.final)
          | some last => do
              let out ← writeAt out first.outl last
              let out_len2 : Int := last.length
              let total ← checkInt (out_len1 + out_len2)
              let out ← resize out (SizeT.ofInt total) 0
              .ok (.text out)

def iv : List UInt8 := [65, 70, 108, 50, 51, 70, 53, 54, 45, 56, 69, 48, 49, 33, 70, 52]

def encrypt (evp : Evp) (key ptext : List UInt8) : Except Halt Reply :=
  crypt evp.encryption ⟨"en failed init\n", "en failed encry update", "en failed encry final"⟩ key iv ptext

def decrypt (evp : Evp) (key ctext : List UInt8) : Except Halt Reply :=
  crypt evp.decryption
    ⟨"de failed init\n", "de failed decrypt update\n", "de failed decrypt final\n"⟩ key iv ctext

/-- Encryption and decryption both stay inside their buffers, and the text comes back. -/
def RoundTrips (evp : Evp) (key ptext : List UInt8) : Prop :=
  ∃ ctext, encrypt evp key ptext = .ok (.text ctext) ∧ decrypt evp key ctext = .ok (.text ptext)

/-! ## The body -/

theorem checkInt_eq_ok {i j : Int} : checkInt i = .ok j ↔ (-2 ^ 31 ≤ i ∧ i < 2 ^ 31) ∧ j = i := by
  unfold checkInt
  split <;> simp_all [eq_comm]

/-- The buffer as it is reserved. -/
theorem resize_reserve {size : Nat} (h : size < 2 ^ 31) :
    resize ([] : List UInt8) (shiftLeftOne size) 0 = .ok (List.replicate (2 * size) 0) := by
  have hshift : shiftLeftOne size = 2 * size := by
    unfold shiftLeftOne
    omega
  have hmax : ¬ maxSize < 2 * size := by
    unfold maxSize
    omega
  rw [hshift, resize, if_neg hmax]
  simp

theorem take_toInt {text : List UInt8} (h : text.length < 2 ^ 31) :
    text.take (SizeT.toInt text.length).toNat = text := by
  rw [SizeT.toInt_of_lt h, Int.toNat_natCast, List.take_length]

theorem length_of_writeAt {v w data : List UInt8} {pos : Nat} (h : writeAt v pos data = .ok w) :
    pos + data.length ≤ v.length ∧ w.length = v.length := by
  unfold writeAt at h
  split at h
  · rename_i hle
    cases h
    refine ⟨hle, ?_⟩
    simp only [List.length_append, List.length_take, List.length_drop]
    omega
  · cases h

/-- What two writes leave at the front of the buffer. -/
theorem take_writeAt_writeAt {v first last w x : List UInt8} {n : Nat} (hn : n ≤ first.length)
    (hw : writeAt v 0 first = .ok w) (hx : writeAt w n last = .ok x) :
    x.take (n + last.length) = first.take n ++ last := by
  rw [writeAt_eq_ok (length_of_writeAt hw).1] at hw
  rw [writeAt_eq_ok (length_of_writeAt hx).1] at hx
  cases hw
  cases hx
  have hfront : (v.take 0 ++ first ++ v.drop (0 + first.length)).take n = first.take n := by
    rw [List.take_zero, List.nil_append, List.take_append_of_le_length hn]
  rw [hfront]
  refine List.take_left' ?_
  rw [List.length_append, List.length_take, Nat.min_eq_left hn]

/-- The function returns what the cipher puts out if that fits in the buffer. -/
theorem crypt_ok {c : Cipher} {key iv text last : List UInt8} {first : Output} (messages : Messages)
    (h : c.Produces key iv text first last) (hsize : 2 * text.length < 2 ^ 31)
    (houtl : first.outl ≤ first.written.length) (hfirst : first.written.length ≤ 2 * text.length)
    (hlast : first.outl + last.length ≤ 2 * text.length) :
    crypt c messages key iv text = .ok (.text (first.written.take first.outl ++ last)) := by
  obtain ⟨ctx, ctx', hinit, hupdate, hfinal⟩ := h
  obtain ⟨w, hw⟩ : ∃ w, writeAt (List.replicate (2 * text.length) 0) 0 first.written = .ok w :=
    ⟨_, writeAt_eq_ok (by simpa using hfirst)⟩
  have hwlength : w.length = 2 * text.length := by
    rw [(length_of_writeAt hw).2, List.length_replicate]
  obtain ⟨x, hx⟩ : ∃ x, writeAt w first.outl last = .ok x :=
    ⟨_, writeAt_eq_ok (by rw [hwlength]; exact hlast)⟩
  have hxlength : x.length = 2 * text.length := (length_of_writeAt hx).2.trans hwlength
  -- neither of the two `int` computations overflows
  have hrest : checkInt (SizeT.toInt w.length - first.outl)
      = .ok (SizeT.toInt w.length - first.outl) := by
    rw [checkInt_eq_ok, hwlength, SizeT.toInt_of_lt hsize]
    omega
  have htotal : checkInt ((first.outl : Int) + (last.length : Int))
      = .ok ((first.outl + last.length : Nat) : Int) := by
    rw [checkInt_eq_ok]
    omega
  have hcut : resize x (SizeT.ofInt ((first.outl + last.length : Nat) : Int)) 0
      = .ok (first.written.take first.outl ++ last) := by
    have hmax : ¬ maxSize < first.outl + last.length := by
      unfold maxSize
      omega
    rw [SizeT.ofInt_natCast (by omega), resize, if_neg hmax, take_writeAt_writeAt houtl hw hx,
      Nat.sub_eq_zero_of_le (by omega), List.replicate_zero, List.append_nil]
  have hlt : text.length < 2 ^ 31 := by omega
  simp only [crypt, hinit]
  rw [resize_reserve hlt, ok_bind, take_toInt hlt]
  simp only [hupdate]
  rw [hw, ok_bind, hrest, ok_bind]
  simp only [hfinal]
  rw [hx, ok_bind, htotal, ok_bind, hcut, ok_bind]

/-- Where the function returns a text, the final call has stayed in the buffer and the room left for it
was an `int`. -/
theorem of_crypt_ok {c : Cipher} {key iv text last b : List UInt8} {first : Output}
    {messages : Messages} (h : c.Produces key iv text first last) (hsize : text.length < 2 ^ 31)
    (hcrypt : crypt c messages key iv text = .ok (.text b)) :
    first.outl + last.length ≤ 2 * text.length ∧
      -2 ^ 31 ≤ SizeT.toInt (2 * text.length) - first.outl := by
  obtain ⟨ctx, ctx', hinit, hupdate, hfinal⟩ := h
  simp only [crypt, hinit, resize_reserve hsize, take_toInt hsize, hupdate] at hcrypt
  obtain ⟨v, hv, hcrypt⟩ := bind_eq_ok hcrypt
  cases hv
  obtain ⟨w, hw, hcrypt⟩ := bind_eq_ok hcrypt
  obtain ⟨rest, hrest, hcrypt⟩ := bind_eq_ok hcrypt
  simp only [hfinal] at hcrypt
  obtain ⟨x, hx, -⟩ := bind_eq_ok hcrypt
  have hwlength : w.length = 2 * text.length := by
    rw [(length_of_writeAt hw).2, List.length_replicate]
  have hroom := (checkInt_eq_ok.mp hrest).1.1
  have hlast := (length_of_writeAt hx).1
  rw [hwlength] at hroom hlast
  exact ⟨hlast, hroom⟩

/-! ## Round trips -/

/-- An encryption of at least eight bytes puts out whole blocks, one more than the text fills. -/
theorem encrypt_ok {evp : Evp} {key ptext last : List UInt8} {first : Output}
    (h : evp.encryption.Produces key iv ptext first last) (hsize : 2 * ptext.length < 2 ^ 31)
    (hwritten : first.written.length = 16 * (ptext.length / 16))
    (houtl : first.outl = 16 * (ptext.length / 16)) (hlast : last.length = 16)
    (hmin : 8 ≤ ptext.length) :
    encrypt evp key ptext = .ok (.text (first.written ++ last)) := by
  have hcrypt := crypt_ok ⟨"en failed init\n", "en failed encry update", "en failed encry final"⟩ h hsize
    (by omega) (by omega) (by omega)
  have hall : first.written.take first.outl = first.written := List.take_of_length_le (by omega)
  rw [hall] at hcrypt
  exact hcrypt

/-- A text comes back, and every write stays in its buffer, exactly from eight bytes on and as long as the
size of the buffer of `decrypt` is an `int`. -/
theorem roundTrips_iff {evp : Evp} {key : List UInt8} (hevp : evp.Lawful key iv) {ptext : List UInt8}
    (hsize : 2 * ptext.length < 2 ^ 31) :
    RoundTrips evp key ptext ↔ 8 ≤ ptext.length ∧ ptext.length < 2 ^ 30 - 16 := by
  obtain ⟨first, last, hproduces, hwritten, houtl, hlast⟩ := hevp.encrypts ptext (by omega)
  have hlength : (first.written ++ last).length = 16 * (ptext.length / 16) + 16 := by
    rw [List.length_append, hwritten, hlast]
  obtain ⟨first', last', hproduces', hback, houtl', hwritten', hlast'⟩ :=
    hevp.inverts ptext first last hproduces (by omega)
  have hsum : first'.outl + last'.length = ptext.length := by
    have := congrArg List.length hback
    rw [List.length_append, List.length_take] at this
    omega
  constructor
  · rintro ⟨ctext, hencrypt, hdecrypt⟩
    -- the final block of sixteen bytes has to fit in twice the length
    have hmin : 8 ≤ ptext.length := by
      have := (of_crypt_ok hproduces (by omega) hencrypt).1
      omega
    rw [encrypt_ok hproduces hsize hwritten houtl hlast hmin] at hencrypt
    cases hencrypt
    refine ⟨hmin, ?_⟩
    have hroom := (of_crypt_ok hproduces' (by omega) hdecrypt).2
    by_contra hlarge
    -- the buffer of `decrypt` has 2 ^ 31 bytes, which is -2 ^ 31 as an `int`
    have hbuffer : 2 * (first.written ++ last).length = 2 ^ 31 := by omega
    have hint : SizeT.toInt (2 ^ 31) = -2 ^ 31 := by decide
    rw [hbuffer, hint] at hroom
    omega
  · rintro ⟨hmin, hmax⟩
    refine ⟨_, encrypt_ok hproduces hsize hwritten houtl hlast hmin, ?_⟩
    have hdecrypt := crypt_ok ⟨"de failed init\n", "de failed decrypt update\n", "de failed decrypt final\n"⟩
      hproduces' (by omega) houtl' (by omega) (by omega)
    rw [hback] at hdecrypt
    exact hdecrypt

/-! ## A cipher with these laws

The padding and the blocks are those of AES-256-CBC; a block is masked instead of enciphered.  The mask is
the one for which the text `qwe#asd^123` under the key below comes out as under AES-256-CBC. -/

def mask : List UInt8 := [186, 105, 174, 70, 251, 134, 212, 5, 77, 103, 48, 252, 143, 250, 168, 82]

def applyMask (l : List UInt8) : List UInt8 :=
  l.mapIdx fun i b => b ^^^ mask.getD (i % 16) 0

theorem length_applyMask (l : List UInt8) : (applyMask l).length = l.length := by
  simp [applyMask]

theorem applyMask_applyMask (l : List UInt8) : applyMask (applyMask l) = l := by
  apply List.ext_getElem
  · rw [length_applyMask, length_applyMask]
  · intro i h₁ h₂
    simp only [applyMask, List.getElem_mapIdx]
    rw [UInt8.xor_assoc, UInt8.xor_self, UInt8.xor_zero]

/-- The number of bytes the padding adds. -/
def padding (text : List UInt8) : Nat := 16 - text.length % 16

def pad (text : List UInt8) : List UInt8 :=
  text ++ List.replicate (padding text) (UInt8.ofNat (padding text))

def unpad (block : List UInt8) : List UInt8 :=
  block.take (block.length - (block.getLastD 0).toNat)

def maskEvp : Evp where
  encryption :=
    { Ctx := List UInt8
      init := fun _ _ => some []
      update := fun _ text =>
        let n := 16 * (text.length / 16)
        some (⟨(applyMask (pad text)).take n, n⟩, (applyMask (pad text)).drop n)
      final := some }
  decryption :=
    { Ctx := List UInt8
      init := fun _ _ => some []
      update := fun _ text =>
        let n := text.length - 16
        some (⟨applyMask text, n⟩, (applyMask text).drop n)
      final := fun block => some (unpad block) }

theorem length_pad (text : List UInt8) : (pad text).length = 16 * (text.length / 16) + 16 := by
  simp only [pad, padding, List.length_append, List.length_replicate]
  omega

/-- The last block without its padding is what the text has there. -/
theorem unpad_drop_pad (text : List UInt8) :
    unpad ((pad text).drop (16 * (text.length / 16))) = text.drop (16 * (text.length / 16)) := by
  have hdrop : (pad text).drop (16 * (text.length / 16))
      = text.drop (16 * (text.length / 16))
        ++ List.replicate (padding text) (UInt8.ofNat (padding text)) := by
    rw [pad, List.drop_append_of_le_length (by omega)]
  have hpos : padding text = padding text - 1 + 1 := by
    rw [padding]
    omega
  have hlast : ((pad text).drop (16 * (text.length / 16))).getLastD 0 = UInt8.ofNat (padding text) := by
    rw [hdrop, hpos, List.replicate_succ']
    simp
  have hbyte : (UInt8.ofNat (padding text)).toNat = padding text := by
    rw [UInt8.toNat_ofNat']
    apply Nat.mod_eq_of_lt
    rw [padding]
    omega
  rw [unpad, hlast, hbyte, hdrop]
  refine List.take_left' ?_
  rw [List.length_append, List.length_replicate]
  omega

theorem maskEvp_lawful (key iv : List UInt8) : maskEvp.Lawful key iv where
  encrypts := by
    intro text _
    refine ⟨_, _, ⟨_, _, rfl, rfl, rfl⟩, ?_, rfl, ?_⟩
    · rw [List.length_take, length_applyMask, length_pad]
      omega
    · rw [List.length_drop, length_applyMask, length_pad]
      omega
  inverts := by
    rintro text first last ⟨ctx, ctx', hinit, hupdate, hfinal⟩ _
    cases hinit
    cases hupdate
    cases hfinal
    dsimp only
    rw [List.take_append_drop]
    have hn : (applyMask (pad text)).length - 16 = 16 * (text.length / 16) := by
      rw [length_applyMask, length_pad]
      omega
    refine ⟨_, _, ⟨_, _, rfl, rfl, rfl⟩, ?_⟩
    dsimp only
    rw [hn, applyMask_applyMask, unpad_drop_pad, length_applyMask]
    refine ⟨?_, ?_, by omega, ?_⟩
    · rw [pad, List.take_append_of_le_length (by omega), List.take_append_drop]
    · rw [length_pad]
      omega
    · rw [List.length_drop]
      omega

def sampleKey : List UInt8 :=
  [48, 49, 50, 51, 52, 53, 54, 55, 56, 57, 97, 98, 99, 100, 101, 102,
    48, 49, 50, 51, 52, 53, 54, 55, 56, 57, 97, 98, 99, 100, 101, 102]

/-- The text of `test_endecrypt`, with the bytes that AES-256-CBC gives for it. -/
theorem roundTrips_iff_eleven :
    encrypt maskEvp sampleKey [113, 119, 101, 35, 97, 115, 100, 94, 49, 50, 51]
        = .ok (.text [203, 30, 203, 101, 154, 245, 176, 91, 124, 85, 3, 249, 138, 255, 173, 87]) ∧
      RoundTrips maskEvp sampleKey [113, 119, 101, 35, 97, 115, 100, 94, 49, 50, 51] := by
  refine ⟨by decide +kernel, ?_⟩
  exact (roundTrips_iff (maskEvp_lawful sampleKey iv) (by decide)).mpr ⟨by decide, by decide⟩

/-- The text `a`: the final block of sixteen bytes is written into a buffer of two. -/
theorem not_roundTrips_one :
    maskEvp.Lawful sampleKey iv ∧ ¬ RoundTrips maskEvp sampleKey [97] := by
  refine ⟨maskEvp_lawful sampleKey iv, ?_⟩
  rintro ⟨ctext, hencrypt, -⟩
  have hoverflow : encrypt maskEvp sampleKey [97] = .error .undefinedBehaviour := by decide +kernel
  rw [hoverflow] at hencrypt
  cases hencrypt

end EncryptDecrypt
end MyCppCode
