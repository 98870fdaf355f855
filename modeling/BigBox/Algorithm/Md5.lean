import BigBox.Lib.BlockHash
import BigBox.Lib.ShiftRegister

namespace BigBox.Md5
set_option autoImplicit true

/-- `PADDING`. -/
def PADDING : List UInt8 := 0x80 :: List.replicate 63 0

structure Regs where
  a : UInt32
  b : UInt32
  c : UInt32
  d : UInt32
  deriving DecidableEq, Repr

inductive Reg where
  | a | b | c | d

inductive Round where
  | FF | GG | HH | II

/-- `F`, `G`, `H` and `I`. -/
def Round.apply (round : Round) (x y z : UInt32) : UInt32 :=
  match round with
  | .FF => (x &&& y) ||| (~~~x &&& z)
  | .GG => (x &&& z) ||| (y &&& ~~~z)
  | .HH => x ^^^ y ^^^ z
  | .II => y ^^^ (x ||| ~~~z)

def rotateLeft (x n : UInt32) : UInt32 := (x <<< n) ||| (x >>> (32 - n))

/-- A line of `MD5Transform`: its macro, the register it sets (the others follow in turn), the index
into `x`, the rotation and the constant. -/
structure Line where
  round : Round
  dst : Reg
  k : Nat
  s : UInt32
  ac : UInt32

def Line.mix (line : Line) (x : List UInt32) (a b c d : UInt32) : UInt32 :=
  rotateLeft (a + (line.round.apply b c d + x.getD line.k 0 + line.ac)) line.s + b

def Line.run (x : List UInt32) (regs : Regs) (line : Line) : Regs :=
  match line.dst with
  | .a => { regs with a := line.mix x regs.a regs.b regs.c regs.d }
  | .d => { regs with d := line.mix x regs.d regs.a regs.b regs.c }
  | .c => { regs with c := line.mix x regs.c regs.d regs.a regs.b }
  | .b => { regs with b := line.mix x regs.b regs.c regs.d regs.a }

/-- The lines of `MD5Transform`. -/
def transformLines : List Line := [
  ⟨.FF, .a, 0, 7, 0xd76aa478⟩, ⟨.FF, .d, 1, 12, 0xe8c7b756⟩,
  ⟨.FF, .c, 2, 17, 0x242070db⟩, ⟨.FF, .b, 3, 22, 0xc1bdceee⟩,
  ⟨.FF, .a, 4, 7, 0xf57c0faf⟩, ⟨.FF, .d, 5, 12, 0x4787c62a⟩,
  ⟨.FF, .c, 6, 17, 0xa8304613⟩, ⟨.FF, .b, 7, 22, 0xfd469501⟩,
  ⟨.FF, .a, 8, 7, 0x698098d8⟩, ⟨.FF, .d, 9, 12, 0x8b44f7af⟩,
  ⟨.FF, .c, 10, 17, 0xffff5bb1⟩, ⟨.FF, .b, 11, 22, 0x895cd7be⟩,
  ⟨.FF, .a, 12, 7, 0x6b901122⟩, ⟨.FF, .d, 13, 12, 0xfd987193⟩,
  ⟨.FF, .c, 14, 17, 0xa679438e⟩, ⟨.FF, .b, 15, 22, 0x49b40821⟩,
  ⟨.GG, .a, 1, 5, 0xf61e2562⟩, ⟨.GG, .d, 6, 9, 0xc040b340⟩,
  ⟨.GG, .c, 11, 14, 0x265e5a51⟩, ⟨.GG, .b, 0, 20, 0xe9b6c7aa⟩,
  ⟨.GG, .a, 5, 5, 0xd62f105d⟩, ⟨.GG, .d, 10, 9, 0x2441453⟩,
  ⟨.GG, .c, 15, 14, 0xd8a1e681⟩, ⟨.GG, .b, 4, 20, 0xe7d3fbc8⟩,
  ⟨.GG, .a, 9, 5, 0x21e1cde6⟩, ⟨.GG, .d, 14, 9, 0xc33707d6⟩,
  ⟨.GG, .c, 3, 14, 0xf4d50d87⟩, ⟨.GG, .b, 8, 20, 0x455a14ed⟩,
  ⟨.GG, .a, 13, 5, 0xa9e3e905⟩, ⟨.GG, .d, 2, 9, 0xfcefa3f8⟩,
  ⟨.GG, .c, 7, 14, 0x676f02d9⟩, ⟨.GG, .b, 12, 20, 0x8d2a4c8a⟩,
  ⟨.HH, .a, 5, 4, 0xfffa3942⟩, ⟨.HH, .d, 8, 11, 0x8771f681⟩,
  ⟨.HH, .c, 11, 16, 0x6d9d6122⟩, ⟨.HH, .b, 14, 23, 0xfde5380c⟩,
  ⟨.HH, .a, 1, 4, 0xa4beea44⟩, ⟨.HH, .d, 4, 11, 0x4bdecfa9⟩,
  ⟨.HH, .c, 7, 16, 0xf6bb4b60⟩, ⟨.HH, .b, 10, 23, 0xbebfbc70⟩,
  ⟨.HH, .a, 13, 4, 0x289b7ec6⟩, ⟨.HH, .d, 0, 11, 0xeaa127fa⟩,
  ⟨.HH, .c, 3, 16, 0xd4ef3085⟩, ⟨.HH, .b, 6, 23, 0x4881d05⟩,
  ⟨.HH, .a, 9, 4, 0xd9d4d039⟩, ⟨.HH, .d, 12, 11, 0xe6db99e5⟩,
  ⟨.HH, .c, 15, 16, 0x1fa27cf8⟩, ⟨.HH, .b, 2, 23, 0xc4ac5665⟩,
  ⟨.II, .a, 0, 6, 0xf4292244⟩, ⟨.II, .d, 7, 10, 0x432aff97⟩,
  ⟨.II, .c, 14, 15, 0xab9423a7⟩, ⟨.II, .b, 5, 21, 0xfc93a039⟩,
  ⟨.II, .a, 12, 6, 0x655b59c3⟩, ⟨.II, .d, 3, 10, 0x8f0ccc92⟩,
  ⟨.II, .c, 10, 15, 0xffeff47d⟩, ⟨.II, .b, 1, 21, 0x85845dd1⟩,
  ⟨.II, .a, 8, 6, 0x6fa87e4f⟩, ⟨.II, .d, 15, 10, 0xfe2ce6e0⟩,
  ⟨.II, .c, 6, 15, 0xa3014314⟩, ⟨.II, .b, 13, 21, 0x4e0811a1⟩,
  ⟨.II, .a, 4, 6, 0xf7537e82⟩, ⟨.II, .d, 11, 10, 0xbd3af235⟩,
  ⟨.II, .c, 2, 15, 0x2ad7d2bb⟩, ⟨.II, .b, 9, 21, 0xeb86d391⟩
]

def md5Encode : List UInt32 → List UInt8
  | [] => []
  | w :: input =>
    (w &&& 0xFF).toUInt8 :: ((w >>> 8) &&& 0xFF).toUInt8 :: ((w >>> 16) &&& 0xFF).toUInt8 ::
      ((w >>> 24) &&& 0xFF).toUInt8 :: md5Encode input

def md5Decode : List UInt8 → List UInt32
  | b₀ :: b₁ :: b₂ :: b₃ :: input =>
    (b₀.toUInt32 ||| (b₁.toUInt32 <<< 8) ||| (b₂.toUInt32 <<< 16) ||| (b₃.toUInt32 <<< 24)) ::
      md5Decode input
  | _ => []

def md5Transform (state : Regs) (block : List UInt8) : Regs :=
  let regs := transformLines.foldl (Line.run (md5Decode block)) state
  ⟨state.a + regs.a, state.b + regs.b, state.c + regs.c, state.d + regs.d⟩

structure Md5Ctx where
  count₀ : UInt32
  count₁ : UInt32
  state : Regs
  buffer : List UInt8
  size_buffer : buffer.length = 64

/-- `memcpy` into the buffer; one that leaves it has no result. -/
def Md5Ctx.memcpy (context : Md5Ctx) (index : Nat) (bytes : List UInt8) : Option Md5Ctx :=
  if h : index + bytes.length ≤ context.buffer.length then
    some { context with
      buffer := context.buffer.take index ++ bytes ++ context.buffer.drop (index + bytes.length)
      size_buffer := by
        have hsize := context.size_buffer
        rw [List.length_append, List.length_append, List.length_take, List.length_drop]
        omega }
  else none

/-- What one call is given: its length is an `unsigned int`. -/
abbrev Input := { input : List UInt8 // input.length < 4294967296 }

/-- `MD5Init` leaves the buffer as it is. -/
def md5Init (context : Md5Ctx) : Md5Ctx :=
  { context with
    count₀ := 0
    count₁ := 0
    state := ⟨0x67452301, 0xEFCDAB89, 0x98BADCFE, 0x10325476⟩ }

/-- The loop over the blocks inside the input, with the state and `i` it ends with. A block that
leaves the input, and more rounds than the bound, have no result. -/
def blockLoop (input : List UInt8) : Nat → Regs → Nat → Option (Regs × Nat)
  | 0, _, _ => none
  | fuel + 1, state, i =>
    if (i + 64) % 4294967296 ≤ input.length then
      (Block.read input i 64).bind fun block =>
        blockLoop input fuel (md5Transform state block) ((i + 64) % 4294967296)
    else some (state, i)

def md5Update (context : Md5Ctx) (input : Input) : Option Md5Ctx :=
  let inputlen := UInt32.ofNat input.val.length
  let index := ((context.count₀ >>> 3) &&& 0x3F).toNat
  let partlen := 64 - index
  let count₀ := context.count₀ + (inputlen <<< 3)
  let carry := if count₀ < inputlen <<< 3 then context.count₁ + 1 else context.count₁
  let context := { context with count₀ := count₀, count₁ := carry + (inputlen >>> 29) }
  if partlen ≤ input.val.length then
    (context.memcpy index (input.val.take partlen)).bind fun context =>
      (blockLoop input.val (input.val.length / 64 + 2) (md5Transform context.state context.buffer)
        partlen).bind fun r =>
          { context with state := r.1 }.memcpy 0 (input.val.drop r.2)
  else context.memcpy index input.val

def md5Final (context : Md5Ctx) : Option (List UInt8) :=
  let index := ((context.count₀ >>> 3) &&& 0x3F).toNat
  let padlen := if index < 56 then 56 - index else 120 - index
  let bits := md5Encode [context.count₀, context.count₁]
  (md5Update context ⟨PADDING.take padlen, by
    apply Nat.lt_of_le_of_lt (List.length_take_le' _ _)
    decide⟩).bind fun context =>
      (md5Update context ⟨bits, (by decide : 8 < 4294967296)⟩).map fun context =>
        md5Encode [context.state.a, context.state.b, context.state.c, context.state.d]

/-- `MD5Init`, an update for each input and `MD5Final`. -/
def md5 (context : Md5Ctx) (inputs : List Input) : Option (List UInt8) :=
  (inputs.foldlM md5Update (md5Init context)).bind md5Final

section Counts

/-- The two words of the counter hold the number of bits. -/
structure Counted (count₀ count₁ : UInt32) (n : Nat) : Prop where
  low : count₀.toNat = 8 * n % 4294967296
  high : count₁.toNat = 8 * n / 4294967296 % 4294967296

theorem Counted.index (h : Counted count₀ count₁ n) :
    ((count₀ >>> 3) &&& 0x3F).toNat = n % 64 := by
  have hand := Nat.and_two_pow_sub_one_eq_mod (count₀.toNat >>> 3) 6
  rw [UInt32.toNat_and, UInt32.toNat_shiftRight]
  change count₀.toNat >>> 3 &&& 63 = n % 64
  rw [hand, Nat.shiftRight_eq_div_pow, h.low]
  omega

theorem Counted.add (h : Counted count₀ count₁ n) (hlen : len < 4294967296) :
    Counted (count₀ + (UInt32.ofNat len <<< 3))
      ((if count₀ + (UInt32.ofNat len <<< 3) < UInt32.ofNat len <<< 3 then count₁ + 1 else count₁) +
        (UInt32.ofNat len >>> 29)) (n + len) := by
  have hinput : (UInt32.ofNat len).toNat = len := UInt32.toNat_ofNat_of_lt' hlen
  have hbits : (UInt32.ofNat len <<< 3).toNat = 8 * len % 4294967296 := by
    rw [UInt32.toNat_shiftLeft, hinput, Nat.shiftLeft_eq]
    change len * 8 % 4294967296 = _
    rw [Nat.mul_comm]
  have hover : (UInt32.ofNat len >>> 29).toNat = len / 536870912 := by
    rw [UInt32.toNat_shiftRight, hinput, Nat.shiftRight_eq_div_pow]
    rfl
  have hlow : (count₀ + (UInt32.ofNat len <<< 3)).toNat =
      (8 * n % 4294967296 + 8 * len % 4294967296) % 4294967296 := by
    rw [UInt32.toNat_add, h.low, hbits]
  constructor
  · rw [hlow]
    omega
  · rw [UInt32.toNat_add, hover]
    by_cases hcarry : count₀ + (UInt32.ofNat len <<< 3) < UInt32.ofNat len <<< 3
    · have hone : (1 : UInt32).toNat = 1 := rfl
      rw [if_pos hcarry, UInt32.toNat_add, h.high, hone]
      rw [UInt32.lt_iff_toNat_lt, hlow, hbits] at hcarry
      omega
    · rw [if_neg hcarry, h.high]
      rw [UInt32.lt_iff_toNat_lt, hlow, hbits] at hcarry
      omega

theorem low_byte (w : UInt32) : (w &&& 0xFF).toUInt8 = UInt8.ofNat w.toNat := by
  have hand := Nat.and_two_pow_sub_one_eq_mod w.toNat 8
  apply UInt8.toNat_inj.1
  rw [UInt32.toNat_toUInt8, UInt32.toNat_and, UInt8.toNat_ofNat']
  change (w.toNat &&& 255) % 2 ^ 8 = _
  rw [hand, Nat.mod_mod]

theorem md5Encode_cons (w : UInt32) (input : List UInt32) :
    md5Encode (w :: input) = toBytes 4 w.toNat ++ md5Encode input := by
  have hshift : ∀ s : UInt32, (w >>> s).toNat = w.toNat / 2 ^ (s.toNat % 32) := by
    intro s
    rw [UInt32.toNat_shiftRight, Nat.shiftRight_eq_div_pow]
  rw [md5Encode, low_byte, low_byte, low_byte, low_byte, hshift, hshift, hshift]
  simp only [toBytes, Nat.div_div_eq_div_mul]
  rfl

theorem Counted.bits (h : Counted count₀ count₁ n) :
    md5Encode [count₀, count₁] = toBytes 8 (8 * n) := by
  rw [md5Encode_cons, md5Encode_cons, h.low, h.high, md5Encode, List.append_nil,
    toBytes_append 4 4 (8 * n), ← toBytes_mod 4 (8 * n), ← toBytes_mod 4 (8 * n / 256 ^ 4)]
  rfl

end Counts

section Blocks
variable {input : List UInt8}

/-- The loop takes all blocks, unless the index behind them is no `unsigned int`. -/
theorem blockLoop_eq {blocks : List (List UInt8)} (hblocks : ∀ b ∈ blocks, b.length = 64)
    (hsplit : input.drop i = blocks.flatten ++ tail) (htail : tail.length < 64)
    (hi : i ≤ input.length) (hlen : input.length < 4294967296) (hfuel : blocks.length < fuel)
    (state : Regs) :
    blockLoop input fuel state i =
      if i + blocks.length * 64 + 64 < 4294967296 then
        some (blocks.foldl md5Transform state, i + blocks.length * 64) else none := by
  induction blocks generalizing i fuel state with
  | nil =>
    have hrest : input.length - i = tail.length := by
      rw [← List.length_drop, hsplit, List.flatten_nil, List.nil_append]
    cases fuel with
    | zero => exact (Nat.not_lt_zero _ hfuel).elim
    | succ fuel =>
      rw [blockLoop, List.length_nil, Nat.zero_mul, Nat.add_zero]
      by_cases hend : i + 64 < 4294967296
      · rw [if_pos hend, if_neg (by omega)]
        rfl
      · rw [if_neg hend, if_pos (by omega), Block.read_none (by omega)]
        rfl
  | cons b blocks ih =>
    obtain ⟨hb, hrest⟩ := List.forall_mem_cons.1 hblocks
    have hflat := length_flatten hrest
    have htotal : input.length - i = 64 + (blocks.length * 64 + tail.length) := by
      rw [← List.length_drop, hsplit, List.flatten_cons, List.length_append, List.length_append, hb,
        hflat, Nat.add_assoc]
    have hread : Block.read input i 64 = some b := by
      rw [Block.read, if_pos (by omega), hsplit, List.flatten_cons, List.append_assoc, ← hb,
        List.take_left]
    have hdrop : input.drop (i + 64) = blocks.flatten ++ tail := by
      rw [← List.drop_drop, hsplit, List.flatten_cons, List.append_assoc, ← hb, List.drop_left]
    cases fuel with
    | zero => exact (Nat.not_lt_zero _ hfuel).elim
    | succ fuel =>
      have hnext : (i + 64) % 4294967296 = i + 64 := Nat.mod_eq_of_lt (by omega)
      have hfuel' : blocks.length < fuel := Nat.lt_of_succ_lt_succ hfuel
      have hsame : i + 64 + blocks.length * 64 = i + (b :: blocks).length * 64 := by
        rw [List.length_cons]
        omega
      rw [blockLoop, hnext, if_pos (by omega), hread, Option.bind_some,
        ih hrest hdrop (by omega) hfuel', hsame, List.foldl_cons]

theorem memcpy_eq (context : Md5Ctx) {rest : List UInt8} (bytes : List UInt8)
    (hbuffer : context.buffer.take rest.length = rest)
    (hlen : rest.length + bytes.length ≤ 64) :
    ∃ context', context.memcpy rest.length bytes = some context' ∧
      context'.state = context.state ∧ context'.count₀ = context.count₀ ∧
      context'.count₁ = context.count₁ ∧
      context'.buffer.take (rest ++ bytes).length = rest ++ bytes := by
  have hsize := context.size_buffer
  refine ⟨_, dif_pos (by omega), rfl, rfl, rfl, ?_⟩
  change (context.buffer.take rest.length ++ bytes ++ _).take _ = _
  rw [hbuffer, List.take_left]

end Blocks

/-- The call fits into the arithmetic of the block loop. -/
def Fits (consumed : Nat) (input : Input) : Prop :=
  input.val.length < 4294967232 + (64 - consumed % 64) % 64

/-- A context that has taken a message: its whole blocks are in the state, the rest is in the
buffer, and its bits are counted. -/
structure Md5Ctx.Holds (context : Md5Ctx) (init : Regs) (m rest : List UInt8) : Prop where
  absorbed : Absorbed md5Transform 64 init m context.state rest
  buffer : context.buffer.take rest.length = rest
  counted : Counted context.count₀ context.count₁ m.length

namespace Md5Ctx.Holds
variable {context : Md5Ctx} {init : Regs} {m rest : List UInt8}

/-- A call is taken, or has no result when it does not fit. -/
theorem update (h : context.Holds init m rest) (input : Input) :
    (Fits m.length input ∧ ∃ context' rest', md5Update context input = some context' ∧
      context'.Holds init (m ++ input.val) rest') ∨
    (¬ Fits m.length input ∧ md5Update context input = none) := by
  have hmod := h.absorbed.length_mod
  have hlt := h.absorbed.lt
  have hlen := input.property
  have hcounted := h.counted.add hlen
  rw [← List.length_append] at hcounted
  simp only [md5Update, h.counted.index, hmod, Fits]
  by_cases hfull : 64 - rest.length ≤ input.val.length
  · have htake : (input.val.take (64 - rest.length)).length = 64 - rest.length :=
      List.length_take_of_le hfull
    obtain ⟨context₁, hcopy, hstate, hcount₀, hcount₁, hbuffer⟩ :=
      memcpy_eq
        { context with
          count₀ := context.count₀ + (UInt32.ofNat input.val.length <<< 3)
          count₁ := (if context.count₀ + (UInt32.ofNat input.val.length <<< 3) <
            UInt32.ofNat input.val.length <<< 3 then context.count₁ + 1 else context.count₁) +
              (UInt32.ofNat input.val.length >>> 29) }
        (input.val.take (64 - rest.length)) h.buffer (by omega)
    have hblockLen : (rest ++ input.val.take (64 - rest.length)).length = 64 := by
      rw [List.length_append, htake]
      omega
    rw [hblockLen, List.take_of_length_le (Nat.le_of_eq context₁.size_buffer)] at hbuffer
    obtain ⟨blocks, tail, hblocks, hsplit, htail⟩ :=
      exists_blocks (by decide : 0 < 64) (input.val.drop (64 - rest.length))
    have hflat := length_flatten hblocks
    have htotal : input.val.length - (64 - rest.length) = blocks.length * 64 + tail.length := by
      rw [← List.length_drop, hsplit, List.length_append, hflat]
    have hfuel : blocks.length < input.val.length / 64 + 2 := by omega
    have hloop := blockLoop_eq hblocks hsplit htail hfull hlen hfuel
      (md5Transform context₁.state context₁.buffer)
    rw [if_pos hfull, hcopy, Option.bind_some, hloop]
    by_cases hend : 64 - rest.length + blocks.length * 64 + 64 < 4294967296
    · refine .inl ⟨by omega, ?_⟩
      have hdrop : input.val.drop (64 - rest.length + blocks.length * 64) = tail := by
        rw [← List.drop_drop, hsplit, ← hflat, List.drop_left]
      have hmessage : input.val =
          input.val.take (64 - rest.length) ++ (blocks.flatten ++ tail) := by
        rw [← hsplit, List.take_append_drop]
      have hempty : context₁.buffer.take ([] : List UInt8).length = [] := rfl
      obtain ⟨context₂, hcopy₂, hstate₂, hcount₂, hcount₃, hbuffer₂⟩ :=
        memcpy_eq
          { context₁ with
            state := blocks.foldl md5Transform (md5Transform context₁.state context₁.buffer) }
          tail hempty (by rw [List.length_nil, Nat.zero_add]; omega)
      rw [if_pos hend, Option.bind_some, hdrop]
      refine ⟨context₂, tail, hcopy₂, ?_, hbuffer₂, ?_⟩
      · have habsorbed := (h.absorbed.block hblockLen).append blocks hblocks
          (List.nil_append (blocks.flatten ++ tail)) htail
        rw [hstate₂]
        change Absorbed _ _ _ _ (blocks.foldl md5Transform
          (md5Transform context₁.state context₁.buffer)) _
        have hsame : context₁.state = context.state := hstate
        rw [List.append_assoc, ← hmessage] at habsorbed
        rw [hbuffer, hsame]
        exact habsorbed
      · rw [hcount₂.trans hcount₀, hcount₃.trans hcount₁]
        exact hcounted
    · refine .inr ⟨by omega, ?_⟩
      rw [if_neg hend]
      rfl
  · refine .inl ⟨by omega, ?_⟩
    obtain ⟨context', hcopy, hstate, hcount₀, hcount₁, hbuffer⟩ :=
      memcpy_eq
        { context with
          count₀ := context.count₀ + (UInt32.ofNat input.val.length <<< 3)
          count₁ := (if context.count₀ + (UInt32.ofNat input.val.length <<< 3) <
            UInt32.ofNat input.val.length <<< 3 then context.count₁ + 1 else context.count₁) +
              (UInt32.ofNat input.val.length >>> 29) }
        input.val h.buffer (by omega)
    rw [if_neg hfull]
    refine ⟨context', rest ++ input.val, hcopy, ?_, hbuffer, ?_⟩
    · rw [hstate]
      apply h.absorbed.wait
      rw [List.length_append]
      omega
    · rw [hcount₀, hcount₁]
      exact hcounted

end Md5Ctx.Holds

section Digest

def md5InitState : Regs := ⟨0x67452301, 0xEFCDAB89, 0x98BADCFE, 0x10325476⟩

/-- A message padded with a bit, zeros and its length in bits. -/
def md5Padded (m : List UInt8) : List UInt8 :=
  padded 0x80 0 64 8 m ++ toBytes 8 (8 * m.length)

/-- The compression folded over the padded message. -/
def md5Digest (m : List UInt8) : List UInt8 :=
  let state := (blocksOf 64 (md5Padded m)).foldl md5Transform md5InitState
  md5Encode [state.a, state.b, state.c, state.d]

theorem md5Init_holds (context : Md5Ctx) : (md5Init context).Holds md5InitState [] [] :=
  ⟨absorbed_nil (by decide) _, rfl, rfl, rfl⟩

theorem padding_take (n : Nat) :
    PADDING.take (if n % 64 < 56 then 56 - n % 64 else 120 - n % 64) =
      0x80 :: List.replicate ((2 * 64 - 1 - 8 - n % 64) % 64) 0 := by
  have hlen : (if n % 64 < 56 then 56 - n % 64 else 120 - n % 64) =
      (2 * 64 - 1 - 8 - n % 64) % 64 + 1 := by
    split <;> omega
  rw [hlen, PADDING, List.take_succ_cons, List.take_replicate,
    Nat.min_eq_left (Nat.le_of_lt_succ (Nat.mod_lt _ (by decide)))]

/-- A short call fits. -/
theorem fits_of_le (input : Input) (h : input.val.length ≤ 64) (consumed : Nat) :
    Fits consumed input := by
  rw [Fits]
  omega

theorem Md5Ctx.Holds.final {context : Md5Ctx} (h : context.Holds md5InitState m rest) :
    md5Final context = some (md5Digest m) := by
  have hpad := padding_take m.length
  have hindex := h.counted.index
  have hbits := h.counted.bits
  have hlen : (PADDING.take (if m.length % 64 < 56 then 56 - m.length % 64
      else 120 - m.length % 64)).length ≤ 64 := List.length_take_le' _ _
  have hbound : (PADDING.take (if m.length % 64 < 56 then 56 - m.length % 64
      else 120 - m.length % 64)).length < 4294967296 := Nat.lt_of_le_of_lt hlen (by decide)
  have hbitsBound : (toBytes 8 (8 * m.length)).length < 4294967296 := by
    rw [length_toBytes]
    decide
  obtain ⟨_, context₁, rest₁, hrun₁, h₁⟩ | ⟨hno, _⟩ := h.update ⟨_, hbound⟩
  · obtain ⟨_, context₂, rest₂, hrun₂, h₂⟩ | ⟨hno, _⟩ := h₁.update ⟨_, hbitsBound⟩
    · have hmessage : m ++ PADDING.take (if m.length % 64 < 56 then 56 - m.length % 64
          else 120 - m.length % 64) ++ toBytes 8 (8 * m.length) = md5Padded m := by
        rw [hpad]
        rfl
      have hfull : (md5Padded m).length % 64 = 0 := by
        apply Nat.mod_eq_zero_of_dvd
        rw [md5Padded, List.length_append, length_toBytes]
        exact (padded_length 0x80 0 m (by decide)).1
      rw [hmessage] at h₂
      have hrest : rest₂ = [] := by
        apply List.eq_nil_of_length_eq_zero
        rw [← h₂.absorbed.length_mod, hfull]
      subst hrest
      rw [md5Digest, ← h₂.absorbed.state]
      simp only [md5Final, hindex, hbits, hrun₁, Option.bind_some, hrun₂, Option.map_some]
    · exact (hno (fits_of_le _ (by rw [length_toBytes]; decide) _)).elim
  · exact (hno (fits_of_le _ hlen _)).elim

/-- The bytes of the inputs. -/
def message (inputs : List Input) : List UInt8 := inputs.flatMap Subtype.val

/-- Every call of a sequence fits. -/
def AllFit (consumed : Nat) : List Input → Prop
  | [] => True
  | input :: inputs => Fits consumed input ∧ AllFit (consumed + input.val.length) inputs

theorem Md5Ctx.Holds.run {context : Md5Ctx} (h : context.Holds md5InitState m rest)
    (inputs : List Input) :
    (AllFit m.length inputs ∧ (inputs.foldlM md5Update context).bind md5Final =
      some (md5Digest (m ++ message inputs))) ∨
    (¬ AllFit m.length inputs ∧ (inputs.foldlM md5Update context).bind md5Final = none) := by
  induction inputs generalizing context m rest with
  | nil =>
    refine .inl ⟨trivial, ?_⟩
    rw [message, List.flatMap_nil, List.append_nil]
    exact h.final
  | cons input inputs ih =>
    have hmessage : m ++ message (input :: inputs) = m ++ input.val ++ message inputs := by
      rw [message, List.flatMap_cons, List.append_assoc]
      rfl
    rw [List.foldlM_cons, hmessage]
    rcases h.update input with ⟨hfits, context', rest', hrun, h'⟩ | ⟨hno, hrun⟩
    · rw [hrun]
      have hrest := ih h'
      rw [List.length_append] at hrest
      rcases hrest with ⟨hall, hdigest⟩ | ⟨hno, hnone⟩
      · exact .inl ⟨⟨hfits, hall⟩, hdigest⟩
      · exact .inr ⟨fun hall => hno hall.2, hnone⟩
    · rw [hrun]
      exact .inr ⟨fun hall => hno hall.1, rfl⟩

theorem md5_eq (context : Md5Ctx) (inputs : List Input) :
    (AllFit 0 inputs ∧ md5 context inputs = some (md5Digest (message inputs))) ∨
      (¬ AllFit 0 inputs ∧ md5 context inputs = none) :=
  (md5Init_holds context).run inputs

/-- However a message is cut into calls, its digest is that of a single call and the compression
folded over the padded message, if and only if all these calls fit. -/
theorem md5_digest_iff (context context' : Md5Ctx) (inputs : List Input) :
    (md5 context inputs = some (md5Digest (message inputs)) ∧
        ∀ input : Input, input.val = message inputs → md5 context' [input] = md5 context inputs) ↔
      AllFit 0 inputs ∧ ((message inputs).length < 4294967296 →
        (message inputs).length < 4294967232) := by
  constructor
  · rintro ⟨hdigest, hsingle⟩
    constructor
    · rcases md5_eq context inputs with ⟨hall, _⟩ | ⟨_, hnone⟩
      · exact hall
      · cases hnone.symm.trans hdigest
    · intro hlen
      have hrun := hsingle ⟨message inputs, hlen⟩ rfl
      rcases md5_eq context' [⟨message inputs, hlen⟩] with ⟨hall, _⟩ | ⟨_, hnone⟩
      · exact hall.1
      · cases hnone.symm.trans (hrun.trans hdigest)
  · rintro ⟨hall, hlen⟩
    have hdigest : md5 context inputs = some (md5Digest (message inputs)) := by
      rcases md5_eq context inputs with ⟨_, hdigest⟩ | ⟨hno, _⟩
      · exact hdigest
      · exact (hno hall).elim
    refine ⟨hdigest, fun input hinput => ?_⟩
    have hone : message [input] = message inputs := (List.flatMap_singleton _ input).trans hinput
    have hfits : Fits 0 input := by
      rw [Fits, hinput]
      exact hlen (hinput ▸ input.property)
    rcases md5_eq context' [input] with ⟨_, hrun⟩ | ⟨hno, _⟩
    · rw [hrun, hone, hdigest]
    · exact (hno ⟨hfits, trivial⟩).elim

/-- A message of 2^32 - 64 bytes in one call. -/
theorem not_md5_digest : ¬ ∀ (context : Md5Ctx) (inputs : List Input),
    8 * (message inputs).length < 18446744073709551616 →
      md5 context inputs = some (md5Digest (message inputs)) := by
  intro h
  have hlen : (List.replicate 4294967232 (0 : UInt8)).length = 4294967232 := List.length_replicate
  have hinput : (List.replicate 4294967232 (0 : UInt8)).length < 4294967296 := by
    rw [hlen]
    decide
  have hone : message [⟨_, hinput⟩] = List.replicate 4294967232 0 := List.flatMap_singleton _ _
  have hdigest := h ⟨0, 0, ⟨0, 0, 0, 0⟩, List.replicate 64 0, List.length_replicate⟩ [⟨_, hinput⟩]
    (by rw [hone, hlen]; decide)
  rcases md5_eq ⟨0, 0, ⟨0, 0, 0, 0⟩, List.replicate 64 0, List.length_replicate⟩ [⟨_, hinput⟩]
    with ⟨hall, _⟩ | ⟨_, hnone⟩
  · have hfits := hall.1
    rw [Fits, hlen] at hfits
    exact absurd hfits (by decide)
  · cases hnone.symm.trans hdigest

end Digest

end BigBox.Md5
