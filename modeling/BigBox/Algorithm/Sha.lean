import BigBox.Lib.BlockHash
import BigBox.Lib.ShiftRegister

namespace BigBox.Sha
set_option autoImplicit true

def rotLeft (a b : UInt32) : UInt32 := (a <<< b) ||| (a >>> (32 - b))

def rotRight (a b : UInt32) : UInt32 := (a >>> b) ||| (a <<< (32 - b))

/-- The words of a block, the highest byte first. -/
def decodeWords (join : UInt32 → UInt32 → UInt32) : List UInt8 → List UInt32
  | b₀ :: b₁ :: b₂ :: b₃ :: data =>
    join (join (join (b₀.toUInt32 <<< 24) (b₁.toUInt32 <<< 16)) (b₂.toUInt32 <<< 8)) b₃.toUInt32 ::
      decodeWords join data
  | _ => []

/-- The bytes of words, the highest first. -/
def encodeWords : List UInt32 → List UInt8
  | [] => []
  | w :: state =>
    ((w >>> 24) &&& 0xFF).toUInt8 :: ((w >>> 16) &&& 0xFF).toUInt8 ::
      ((w >>> 8) &&& 0xFF).toUInt8 :: (w &&& 0xFF).toUInt8 :: encodeWords state

section Sha1

/-- The state of `SHA1_CTX` with the constants it holds. -/
structure Sha1State where
  a : UInt32
  b : UInt32
  c : UInt32
  d : UInt32
  e : UInt32
  k₀ : UInt32
  k₁ : UInt32
  k₂ : UInt32
  k₃ : UInt32
  deriving DecidableEq, Repr

/-- The message schedule from the 16 words of a block on. -/
def sha1Schedule (words : List UInt32) : List UInt32 :=
  (List.range' 16 64).foldl (fun m i => m ++ [rotLeft (m.getD (i - 3) 0 ^^^ m.getD (i - 8) 0 ^^^
    m.getD (i - 14) 0 ^^^ m.getD (i - 16) 0) 1]) words

/-- One round with its function, constant and word. -/
def sha1Round (f : UInt32 → UInt32 → UInt32 → UInt32) (k : UInt32) (s : Sha1State) (m : UInt32) :
    Sha1State :=
  { s with
    a := rotLeft s.a 5 + f s.b s.c s.d + s.e + k + m
    b := s.a
    c := rotLeft s.b 30
    d := s.c
    e := s.d }

def sha1Transform (state : Sha1State) (data : List UInt8) : Sha1State :=
  let m := sha1Schedule (decodeWords (· + ·) data)
  let s := (m.take 20).foldl (sha1Round (fun b c d => (b &&& c) ^^^ (~~~b &&& d)) state.k₀) state
  let s := ((m.drop 20).take 20).foldl (sha1Round (fun b c d => b ^^^ c ^^^ d) state.k₁) s
  let s := ((m.drop 40).take 20).foldl
    (sha1Round (fun b c d => (b &&& c) ^^^ (b &&& d) ^^^ (c &&& d)) state.k₂) s
  let s := ((m.drop 60).take 20).foldl (sha1Round (fun b c d => b ^^^ c ^^^ d) state.k₃) s
  { state with
    a := state.a + s.a
    b := state.b + s.b
    c := state.c + s.c
    d := state.d + s.d
    e := state.e + s.e }

def sha1InitState : Sha1State :=
  ⟨0x67452301, 0xEFCDAB89, 0x98BADCFE, 0x10325476, 0xc3d2e1f0, 0x5a827999, 0x6ed9eba1, 0x8f1bbcdc,
    0xca62c1d6⟩

def sha1Hash (s : Sha1State) : List UInt8 := encodeWords [s.a, s.b, s.c, s.d, s.e]

end Sha1

section Sha256

structure Sha256State where
  a : UInt32
  b : UInt32
  c : UInt32
  d : UInt32
  e : UInt32
  f : UInt32
  g : UInt32
  h : UInt32
  deriving DecidableEq, Repr

def CH (x y z : UInt32) : UInt32 := (x &&& y) ^^^ (~~~x &&& z)
def MAJ (x y z : UInt32) : UInt32 := (x &&& y) ^^^ (x &&& z) ^^^ (y &&& z)
def EP0 (x : UInt32) : UInt32 := rotRight x 2 ^^^ rotRight x 13 ^^^ rotRight x 22
def EP1 (x : UInt32) : UInt32 := rotRight x 6 ^^^ rotRight x 11 ^^^ rotRight x 25
def SIG0 (x : UInt32) : UInt32 := rotRight x 7 ^^^ rotRight x 18 ^^^ (x >>> 3)
def SIG1 (x : UInt32) : UInt32 := rotRight x 17 ^^^ rotRight x 19 ^^^ (x >>> 10)

def k : List UInt32 := [
  0x428a2f98, 0x71374491, 0xb5c0fbcf, 0xe9b5dba5, 0x3956c25b, 0x59f111f1, 0x923f82a4, 0xab1c5ed5,
  0xd807aa98, 0x12835b01, 0x243185be, 0x550c7dc3, 0x72be5d74, 0x80deb1fe, 0x9bdc06a7, 0xc19bf174,
  0xe49b69c1, 0xefbe4786, 0x0fc19dc6, 0x240ca1cc, 0x2de92c6f, 0x4a7484aa, 0x5cb0a9dc, 0x76f988da,
  0x983e5152, 0xa831c66d, 0xb00327c8, 0xbf597fc7, 0xc6e00bf3, 0xd5a79147, 0x06ca6351, 0x14292967,
  0x27b70a85, 0x2e1b2138, 0x4d2c6dfc, 0x53380d13, 0x650a7354, 0x766a0abb, 0x81c2c92e, 0x92722c85,
  0xa2bfe8a1, 0xa81a664b, 0xc24b8b70, 0xc76c51a3, 0xd192e819, 0xd6990624, 0xf40e3585, 0x106aa070,
  0x19a4c116, 0x1e376c08, 0x2748774c, 0x34b0bcb5, 0x391c0cb3, 0x4ed8aa4a, 0x5b9cca4f, 0x682e6ff3,
  0x748f82ee, 0x78a5636f, 0x84c87814, 0x8cc70208, 0x90befffa, 0xa4506ceb, 0xbef9a3f7, 0xc67178f2]

def sha256Schedule (words : List UInt32) : List UInt32 :=
  (List.range' 16 48).foldl (fun m i => m ++ [SIG1 (m.getD (i - 2) 0) + m.getD (i - 7) 0 +
    SIG0 (m.getD (i - 15) 0) + m.getD (i - 16) 0]) words

def sha256Round (s : Sha256State) (km : UInt32 × UInt32) : Sha256State :=
  let t1 := s.h + EP1 s.e + CH s.e s.f s.g + km.1 + km.2
  let t2 := EP0 s.a + MAJ s.a s.b s.c
  ⟨t1 + t2, s.a, s.b, s.c, s.d + t1, s.e, s.f, s.g⟩

def sha256Transform (state : Sha256State) (data : List UInt8) : Sha256State :=
  let s := (k.zip (sha256Schedule (decodeWords (· ||| ·) data))).foldl sha256Round state
  ⟨state.a + s.a, state.b + s.b, state.c + s.c, state.d + s.d, state.e + s.e, state.f + s.f,
    state.g + s.g, state.h + s.h⟩

def sha256InitState : Sha256State :=
  ⟨0x6a09e667, 0xbb67ae85, 0x3c6ef372, 0xa54ff53a, 0x510e527f, 0x9b05688c, 0x1f83d9ab, 0x5be0cd19⟩

def sha256Hash (s : Sha256State) : List UInt8 :=
  encodeWords [s.a, s.b, s.c, s.d, s.e, s.f, s.g, s.h]

end Sha256

section Context
variable {σ : Type}

/-- `SHA1_CTX` and `SHA256_CTX`, with their states. -/
structure ShaCtx (σ : Type) where
  data : List UInt8
  size_data : data.length = 64
  datalen : Nat
  datalen_lt : datalen < 64
  bitlen : UInt64
  state : σ

/-- What one call is given: its length is an `unsigned int`. -/
abbrev Input := { data : List UInt8 // data.length < 4294967296 }

def shaInit (init : σ) (ctx : ShaCtx σ) : ShaCtx σ :=
  { ctx with
    datalen := 0
    datalen_lt := by decide
    bitlen := 0
    state := init }

/-- One round of the loop of an update. -/
def shaByte (transform : σ → List UInt8 → σ) (ctx : ShaCtx σ) (byte : UInt8) : ShaCtx σ :=
  let data := ctx.data.set ctx.datalen byte
  have size_data : data.length = 64 := List.length_set.trans ctx.size_data
  if h : ctx.datalen + 1 = 64 then
    ⟨data, size_data, 0, by decide, ctx.bitlen + 512, transform ctx.state data⟩
  else
    ⟨data, size_data, ctx.datalen + 1, by have := ctx.datalen_lt; omega, ctx.bitlen, ctx.state⟩

def shaUpdate (transform : σ → List UInt8 → σ) (ctx : ShaCtx σ) (input : Input) : ShaCtx σ :=
  input.val.foldl (shaByte transform) ctx

/-- The bytes of `bitlen` as they stand at `data[56]` to `data[63]`. -/
def bitlenBytes (bitlen : UInt64) : List UInt8 :=
  [(bitlen >>> 56).toUInt8, (bitlen >>> 48).toUInt8, (bitlen >>> 40).toUInt8,
    (bitlen >>> 32).toUInt8, (bitlen >>> 24).toUInt8, (bitlen >>> 16).toUInt8,
    (bitlen >>> 8).toUInt8, bitlen.toUInt8]

/-- The state a final call comes to. -/
def shaFinal (transform : σ → List UInt8 → σ) (ctx : ShaCtx σ) : σ :=
  let i := ctx.datalen
  let bits := bitlenBytes (ctx.bitlen + UInt64.ofNat (ctx.datalen * 8))
  if ctx.datalen < 56 then
    let data := copyAt ctx.data i (0x80 :: List.replicate (56 - (i + 1)) 0)
    transform ctx.state (copyAt data 56 bits)
  else
    let data := copyAt ctx.data i (0x80 :: List.replicate (64 - (i + 1)) 0)
    let state := transform ctx.state data
    let data := copyAt data 0 (List.replicate 56 0)
    transform state (copyAt data 56 bits)

def sha1Init : ShaCtx Sha1State → ShaCtx Sha1State := shaInit sha1InitState

def sha1Update : ShaCtx Sha1State → Input → ShaCtx Sha1State := shaUpdate sha1Transform

def sha1Final (ctx : ShaCtx Sha1State) : List UInt8 := sha1Hash (shaFinal sha1Transform ctx)

def sha256Init : ShaCtx Sha256State → ShaCtx Sha256State := shaInit sha256InitState

def sha256Update : ShaCtx Sha256State → Input → ShaCtx Sha256State := shaUpdate sha256Transform

def sha256Final (ctx : ShaCtx Sha256State) : List UInt8 := sha256Hash (shaFinal sha256Transform ctx)

/-- An init, an update for each input and a final call. -/
def sha1 (ctx : ShaCtx Sha1State) (inputs : List Input) : List UInt8 :=
  sha1Final (inputs.foldl sha1Update (sha1Init ctx))

def sha256 (ctx : ShaCtx Sha256State) (inputs : List Input) : List UInt8 :=
  sha256Final (inputs.foldl sha256Update (sha256Init ctx))

end Context

section Digest
variable {σ : Type} {transform : σ → List UInt8 → σ}

/-- The padding of FIPS 180: a bit, the fewest zeros and the length in bits. -/
def shaPadded (m : List UInt8) : List UInt8 :=
  padded 0x80 0 64 8 m ++ (toBytes 8 (8 * m.length)).reverse

/-- The block compression folded over the padded message. -/
def shaFold (transform : σ → List UInt8 → σ) (init : σ) (m : List UInt8) : σ :=
  (blocksOf 64 (shaPadded m)).foldl transform init

/-- The bytes of the inputs. -/
def message (inputs : List Input) : List UInt8 := inputs.flatMap Subtype.val

theorem bitlenBytes_eq (bitlen : UInt64) :
    bitlenBytes bitlen = (toBytes 8 bitlen.toNat).reverse := by
  have hbyte : ∀ s : UInt64, (bitlen >>> s).toUInt8 =
      UInt8.ofNat (bitlen.toNat / 2 ^ (s.toNat % 64)) := by
    intro s
    apply UInt8.toNat_inj.1
    rw [UInt64.toNat_toUInt8, UInt64.toNat_shiftRight, Nat.shiftRight_eq_div_pow,
      UInt8.toNat_ofNat']
  have hlow : bitlen.toUInt8 = UInt8.ofNat bitlen.toNat := by
    apply UInt8.toNat_inj.1
    rw [UInt64.toNat_toUInt8, UInt8.toNat_ofNat']
  simp only [bitlenBytes, hbyte, hlow, toBytes, Nat.div_div_eq_div_mul]
  rfl

/-- A context that has taken a message. -/
structure ShaCtx.Holds (ctx : ShaCtx σ) (transform : σ → List UInt8 → σ) (init : σ)
    (m rest : List UInt8) : Prop where
  absorbed : Absorbed transform 64 init m ctx.state rest
  datalen : ctx.datalen = rest.length
  data : ctx.data.take rest.length = rest
  bitlen : (ctx.bitlen.toNat + 8 * rest.length) % 18446744073709551616 =
    8 * m.length % 18446744073709551616

theorem shaInit_holds (transform : σ → List UInt8 → σ) (init : σ) (ctx : ShaCtx σ) :
    (shaInit init ctx).Holds transform init [] [] :=
  ⟨absorbed_nil (by decide) init, rfl, rfl, rfl⟩

namespace ShaCtx.Holds
variable {ctx : ShaCtx σ} {init : σ} {m rest : List UInt8}

theorem byte (h : ctx.Holds transform init m rest) (byte : UInt8) :
    ∃ rest', (shaByte transform ctx byte).Holds transform init (m ++ [byte]) rest' := by
  have hlt := h.absorbed.lt
  have hlen := h.datalen
  have hsize := ctx.size_data
  have hbits := h.bitlen
  have hrest : (rest ++ [byte]).length = rest.length + 1 := List.length_append
  have hmsg : (m ++ [byte]).length = m.length + 1 := List.length_append
  have hdata : (ctx.data.set ctx.datalen byte).take (rest.length + 1) = rest ++ [byte] := by
    rw [hlen, List.take_add_one, List.take_set_of_le (Nat.le_refl _), h.data,
      List.getElem?_set_self (by omega)]
    rfl
  rw [shaByte]
  by_cases hfull : ctx.datalen + 1 = 64
  · have hall : ctx.data.set ctx.datalen byte = rest ++ [byte] := by
      rw [← hdata, List.take_of_length_le]
      rw [List.length_set]
      omega
    have hblock : (rest ++ [byte]).length = 64 := by omega
    have habsorbed := h.absorbed.block hblock
    rw [← hall] at habsorbed
    simp only [dif_pos hfull]
    refine ⟨[], habsorbed, rfl, rfl, ?_⟩
    rw [hmsg, UInt64.toNat_add]
    change ((ctx.bitlen.toNat + 512) % 18446744073709551616 + 0) % 18446744073709551616 = _
    omega
  · have hwait : (rest ++ [byte]).length < 64 := by omega
    simp only [dif_neg hfull]
    refine ⟨rest ++ [byte], h.absorbed.wait hwait, ?_, ?_, ?_⟩
    · exact (congrArg (· + 1) hlen).trans hrest.symm
    · rw [hrest, hdata]
    · rw [hrest, hmsg]
      change (ctx.bitlen.toNat + _) % 18446744073709551616 = _
      omega

theorem bytes (h : ctx.Holds transform init m rest) (input : List UInt8) :
    ∃ rest', (input.foldl (shaByte transform) ctx).Holds transform init (m ++ input) rest' := by
  induction input generalizing ctx m rest with
  | nil =>
    rw [List.append_nil]
    exact ⟨rest, h⟩
  | cons b input ih =>
    obtain ⟨rest₁, h₁⟩ := h.byte b
    rw [← List.singleton_append, ← List.append_assoc]
    exact ih h₁

/-- However a message is cut, the context has taken all of it. -/
theorem run (h : ctx.Holds transform init m rest) (inputs : List Input) :
    ∃ rest', (inputs.foldl (shaUpdate transform) ctx).Holds transform init (m ++ message inputs)
      rest' := by
  induction inputs generalizing ctx m rest with
  | nil =>
    rw [message, List.flatMap_nil, List.append_nil]
    exact ⟨rest, h⟩
  | cons input inputs ih =>
    obtain ⟨rest₁, h₁⟩ := h.bytes input.val
    rw [message, List.flatMap_cons, ← List.append_assoc]
    exact ih h₁

theorem bits (h : ctx.Holds transform init m rest) :
    bitlenBytes (ctx.bitlen + UInt64.ofNat (ctx.datalen * 8)) =
      (toBytes 8 (8 * m.length)).reverse := by
  have hcount : (ctx.bitlen + UInt64.ofNat (ctx.datalen * 8)).toNat =
      8 * m.length % 18446744073709551616 := by
    rw [← h.bitlen, UInt64.toNat_add, UInt64.toNat_ofNat', h.datalen]
    change (_ + _ % 18446744073709551616) % 18446744073709551616 = _
    omega
  rw [bitlenBytes_eq, hcount]
  exact congrArg List.reverse (toBytes_mod 8 _)

/-- The final call takes the padding. -/
theorem final (h : ctx.Holds transform init m rest) :
    shaFinal transform ctx = shaFold transform init m := by
  have hlt := h.absorbed.lt
  have hlen := h.datalen
  have hmod := h.absorbed.length_mod
  have hsize := ctx.size_data
  have hdata := h.data
  have hbits : (toBytes 8 (8 * m.length)).reverse.length = 8 := by
    rw [List.length_reverse, length_toBytes]
  rw [← hlen] at hdata
  simp only [shaFinal, h.bits, shaFold]
  by_cases hnear : ctx.datalen < 56
  · have hzeros : (2 * 64 - 1 - 8 - m.length % 64) % 64 = 56 - (ctx.datalen + 1) := by omega
    have hpad : ctx.datalen + (0x80 :: List.replicate (56 - (ctx.datalen + 1)) (0 : UInt8)).length =
        56 := by
      rw [List.length_cons, List.length_replicate]
      omega
    have hend : 56 + (toBytes 8 (8 * m.length)).reverse.length = ctx.data.length := by
      rw [hbits, hsize]
    have hfill := copyAt_fill ctx.data hpad hend
    have hblock : (rest ++ (0x80 :: List.replicate (56 - (ctx.datalen + 1)) (0 : UInt8) ++
        (toBytes 8 (8 * m.length)).reverse)).length = 64 := by
      rw [List.length_append, List.length_append, hbits]
      omega
    rw [if_pos hnear, hfill, hdata, shaPadded, padded, hzeros, List.append_assoc,
      (h.absorbed.block hblock).state, List.append_assoc]
  · have hzeros : (2 * 64 - 1 - 8 - m.length % 64) % 64 = 64 - (ctx.datalen + 1) + 56 := by omega
    have hpad : ctx.datalen + (0x80 :: List.replicate (64 - (ctx.datalen + 1)) (0 : UInt8)).length =
        64 := by
      rw [List.length_cons, List.length_replicate]
      omega
    have hfirst : copyAt (copyAt ctx.data _ _) 64 [] = _ := copyAt_fill ctx.data hpad hsize.symm
    have hall : (copyAt ctx.data ctx.datalen
        (0x80 :: List.replicate (64 - (ctx.datalen + 1)) (0 : UInt8))).length = 64 := by
      rw [length_copyAt _ _ _ (by omega), hsize]
    have hend : 56 + (toBytes 8 (8 * m.length)).reverse.length =
        (copyAt ctx.data ctx.datalen
          (0x80 :: List.replicate (64 - (ctx.datalen + 1)) (0 : UInt8))).length := by
      rw [hbits, hall]
    have hzero : 0 + (List.replicate 56 (0 : UInt8)).length = 56 := rfl
    have hsecond := copyAt_fill _ hzero hend
    have hblock : (rest ++ 0x80 :: List.replicate (64 - (ctx.datalen + 1)) (0 : UInt8)).length =
        64 := by
      rw [List.length_append]
      omega
    have hlast : ([] ++ (List.replicate 56 0 ++ (toBytes 8 (8 * m.length)).reverse)).length =
        64 := by
      rw [List.nil_append, List.length_append, hbits]
      rfl
    rw [copyAt_nil, hdata, List.append_nil] at hfirst
    rw [List.take_zero, hfirst] at hsecond
    rw [if_neg hnear, hfirst, hsecond, shaPadded, padded, hzeros, List.replicate_add,
      List.append_assoc [], ((h.absorbed.block hblock).block hlast).state]
    simp only [List.append_assoc, List.cons_append]

end ShaCtx.Holds

/-- However the message is cut into calls, a digest is that of the padded message. -/
theorem sha_digest (inputs : List Input) :
    (∀ ctx, sha1 ctx inputs = sha1Hash (shaFold sha1Transform sha1InitState (message inputs))) ∧
      ∀ ctx, sha256 ctx inputs =
        sha256Hash (shaFold sha256Transform sha256InitState (message inputs)) := by
  constructor
  · intro ctx
    obtain ⟨rest, h⟩ := (shaInit_holds sha1Transform sha1InitState ctx).run inputs
    exact congrArg sha1Hash h.final
  · intro ctx
    obtain ⟨rest, h⟩ := (shaInit_holds sha256Transform sha256InitState ctx).run inputs
    exact congrArg sha256Hash h.final

end Digest

end BigBox.Sha
