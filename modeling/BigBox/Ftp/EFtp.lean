import Mathlib.Algebra.Order.Ring.Int
import BigBox.Lib.ShiftRegister

namespace BigBox.Ftp
set_option autoImplicit true

def FTP_TYPE_DATA : UInt16 := 4
def FTP_TYPE_EOT : UInt16 := 5

def LENBUFFER : Nat := 504

/-- `struct packet`, its `short` members as unsigned numbers. -/
structure Packet where
  conid : UInt16
  type : UInt16
  comid : UInt16
  datalen : UInt16
  buffer : List UInt8
  size_buffer : buffer.length = LENBUFFER

/-- The memory of a `struct packet`. -/
abbrev Memory := { data : List UInt8 // data.length = 512 }

def ntohs (x : UInt16) : UInt16 := UInt16.ofNat (ofBytes (toBytes 2 x.toNat).reverse)

/-- The bytes of a `short`, the lower one first. -/
def short (x : UInt16) : List UInt8 := toBytes 2 x.toNat

def Packet.bytes (p : Packet) : List UInt8 :=
  short p.conid ++ (short p.type ++ (short p.comid ++ (short p.datalen ++ p.buffer)))

def readShort (data : Memory) (off : Nat) : UInt16 :=
  UInt16.ofNat (ofBytes ((data.val.drop off).take 2))

def Packet.ofBytes (data : Memory) : Packet where
  conid := readShort data 0
  type := readShort data 2
  comid := readShort data 4
  datalen := readShort data 6
  buffer := data.val.drop 8
  size_buffer := by rw [List.length_drop, data.property, LENBUFFER]

def ntohp (pckt : Packet) : Packet :=
  { pckt with
    conid := ntohs pckt.conid
    type := ntohs pckt.type
    comid := ntohs pckt.comid
    datalen := ntohs pckt.datalen }

def htonp (pckt : Packet) : Packet := ntohp pckt

/-- `fread` of up to `LENBUFFER - 1` bytes into a cleared buffer. -/
def Packet.fread (hp : Packet) (f : List UInt8) : Packet :=
  { hp with
    datalen := UInt16.ofNat (f.take (LENBUFFER - 1)).length
    buffer := f.take (LENBUFFER - 1) ++
      List.replicate (LENBUFFER - (f.take (LENBUFFER - 1)).length) 0
    size_buffer := by
      have hle : (f.take (LENBUFFER - 1)).length ≤ LENBUFFER :=
        Nat.le_trans (List.length_take_le _ _) (Nat.sub_le _ _)
      rw [List.length_append, List.length_replicate, Nat.add_sub_cancel' hle] }

/-- What `send_file` leaves in `hp`, and the bytes it sends. -/
def sendFile (hp : Packet) (f : List UInt8) : Packet × List UInt8 :=
  let hp := hp.fread f
  let data := (htonp hp).bytes
  if f.length < LENBUFFER - 1 then (hp, data)
  else
    let rest := sendFile hp (f.drop (LENBUFFER - 1))
    (rest.1, data ++ rest.2)
termination_by f.length
decreasing_by
  rw [List.length_drop]
  rename_i h
  exact Nat.sub_lt (Nat.lt_of_lt_of_le (by decide : 0 < LENBUFFER - 1) (Nat.not_lt.1 h)) (by decide)

def sendEOT (hp : Packet) : List UInt8 := (htonp { hp with type := FTP_TYPE_EOT }).bytes

/-- `send_file` of a packet set to data, and `send_EOT`. -/
def stream (hp : Packet) (f : List UInt8) : List UInt8 :=
  let sent := sendFile { hp with type := FTP_TYPE_DATA } f
  sent.2 ++ sendEOT sent.1

/-- `recv` writes what it got to the start of `data`. -/
def Memory.recv (data : Memory) (chunk : List UInt8) : Memory :=
  ⟨(chunk ++ data.val.drop chunk.length).take 512, by
    have hsize := data.property
    rw [List.length_take, List.length_append, List.length_drop]
    omega⟩

inductive Outcome where
  | eot | lost | exited | undefined
  deriving DecidableEq

/-- `receive_file` on the chunks that `recv` returns: how it ends, and the file. A `fwrite` that
reads behind the packet has no meaning. -/
def receiveFile (data : Memory) (f : List UInt8) : List (List UInt8) → Outcome × List UInt8
  | [] => (.lost, f)
  | chunk :: chunks =>
    let data := data.recv chunk
    let hp := ntohp (Packet.ofBytes data)
    if hp.type = FTP_TYPE_DATA then
      if hp.datalen.toNat ≤ LENBUFFER then
        receiveFile data (f ++ hp.buffer.take hp.datalen.toNat) chunks
      else (.undefined, f)
    else if hp.type = FTP_TYPE_EOT then (.eot, f)
    else (.exited, f)

/-- The size of a chunk, up to that of a `struct packet`. -/
abbrev ChunkSize := { n : Nat // 0 < n ∧ n ≤ 512 }

/-- A stream cut into chunks of given sizes, from the `i`th on. -/
def cut (sizes : Nat → ChunkSize) (i : Nat) (s : List UInt8) : List (List UInt8) :=
  if s = [] then [] else s.take (sizes i).val :: cut sizes (i + 1) (s.drop (sizes i).val)
termination_by s.length
decreasing_by
  rw [List.length_drop]
  rename_i h
  exact Nat.sub_lt (List.length_pos_iff.2 h) (sizes i).property.1

theorem short_length (x : UInt16) : (short x).length = 2 := length_toBytes _ _

theorem short_read (x : UInt16) : UInt16.ofNat (ofBytes (short x)) = x := by
  have hlt : x.toNat < 256 ^ 2 := x.toNat_lt
  rw [short, ofBytes_toBytes hlt, UInt16.ofNat_toNat]

theorem toBytes_short (h : bs.length = 2) :
    toBytes 2 (UInt16.ofNat (ofBytes bs)).toNat = bs := by
  have hlt : ofBytes bs < 2 ^ 16 := by
    have hbytes := ofBytes_lt bs
    rwa [h] at hbytes
  rw [UInt16.toNat_ofNat', Nat.mod_eq_of_lt hlt, ← h, toBytes_ofBytes]

/-- The bytes of a `short` in network order. -/
theorem short_ntohs (x : UInt16) : short (ntohs x) = (short x).reverse :=
  toBytes_short (by rw [List.length_reverse, length_toBytes])

theorem ntohs_ntohs (x : UInt16) : ntohs (ntohs x) = x := by
  have h := short_ntohs x
  rw [short] at h
  rw [ntohs, h, List.reverse_reverse, short_read]

theorem ntohp_htonp (p : Packet) : ntohp (htonp p) = p := by
  rw [htonp, ntohp, ntohp]
  simp only [ntohs_ntohs]

theorem Packet.length_bytes (p : Packet) : p.bytes.length = 512 := by
  rw [bytes]
  simp only [List.length_append, short_length, p.size_buffer, LENBUFFER]

theorem readShort_at (pre : List UInt8) {data : Memory} (h : data.val = pre ++ (short x ++ rest))
    (hoff : pre.length = off) : readShort data off = x := by
  rw [readShort, h, ← hoff, List.drop_left, ← short_length x, List.take_left, short_read]

/-- A packet is read back from its bytes. -/
theorem Packet.ofBytes_bytes {data : Memory} {p : Packet} (h : data.val = p.bytes) :
    Packet.ofBytes data = p := by
  have h0 : readShort data 0 = p.conid := readShort_at [] h rfl
  have h2 : readShort data 2 = p.type := readShort_at (short p.conid) h (short_length _)
  have h4 : readShort data 4 = p.comid := by
    apply readShort_at (short p.conid ++ short p.type)
    · rw [h, bytes, List.append_assoc]
    · rw [List.length_append, short_length, short_length]
  have h6 : readShort data 6 = p.datalen := by
    apply readShort_at (short p.conid ++ (short p.type ++ short p.comid))
    · rw [h, bytes, List.append_assoc, List.append_assoc]
    · simp only [List.length_append, short_length]
  have h8 : data.val.drop 8 = p.buffer := by
    have hpre : (short p.conid ++ (short p.type ++ (short p.comid ++ short p.datalen))).length =
        8 := by
      simp only [List.length_append, short_length]
    have hdata : data.val =
        (short p.conid ++ (short p.type ++ (short p.comid ++ short p.datalen))) ++ p.buffer := by
      rw [h, bytes]
      simp only [List.append_assoc]
    rw [hdata, ← hpre, List.drop_left]
  rw [ofBytes, mk.injEq]
  exact ⟨h0, h2, h4, h6, h8⟩

theorem Memory.val_recv (data : Memory) (piece : List UInt8) :
    (data.recv piece).val = (piece ++ data.val.drop piece.length).take 512 := rfl

theorem Memory.recv_full (data : Memory) (h : piece.length = 512) :
    (data.recv piece).val = piece := by
  have hdrop : data.val.drop 512 = [] := List.drop_eq_nil_of_le (Nat.le_of_eq data.property)
  rw [val_recv, h, hdrop, List.append_nil, ← h, List.take_length]

/-- A packet that is whole in memory is read as it was sent. -/
theorem ntohp_ofBytes {data : Memory} {p : Packet} (h : data.val = (htonp p).bytes) :
    ntohp (Packet.ofBytes data) = p := by
  rw [Packet.ofBytes_bytes h, ntohp_htonp]

theorem receiveFile_data {data : Memory} (f : List UInt8) {p : Packet}
    (h : (data.recv piece).val = (htonp p).bytes) (htype : p.type = FTP_TYPE_DATA)
    (hlen : p.datalen.toNat ≤ LENBUFFER) :
    receiveFile data f (piece :: pieces) =
      receiveFile (data.recv piece) (f ++ p.buffer.take p.datalen.toNat) pieces := by
  rw [receiveFile]
  simp only [ntohp_ofBytes h, if_pos htype, if_pos hlen]

theorem receiveFile_eot {data : Memory} (f : List UInt8) {p : Packet}
    (h : (data.recv piece).val = (htonp p).bytes) (htype : p.type = FTP_TYPE_EOT) :
    receiveFile data f (piece :: pieces) = (.eot, f) := by
  have hdata : p.type ≠ FTP_TYPE_DATA := htype ▸ (by decide)
  rw [receiveFile]
  simp only [ntohp_ofBytes h, if_neg hdata, if_pos htype]

/-- What is written stays written. -/
theorem prefix_receiveFile (data : Memory) (f : List UInt8) (pieces : List (List UInt8)) :
    f <+: (receiveFile data f pieces).2 := by
  induction pieces generalizing data f with
  | nil => exact List.prefix_refl f
  | cons piece pieces ih =>
    rw [receiveFile]
    split
    · split
      · exact (List.prefix_append f _).trans (ih _ _)
      · exact List.prefix_refl f
    · split <;> exact List.prefix_refl f

section Cuts
variable {sizes : Nat → ChunkSize}

theorem cut_cons (h : s ≠ []) :
    cut sizes i s = s.take (sizes i).val :: cut sizes (i + 1) (s.drop (sizes i).val) := by
  rw [cut, if_neg h]

theorem cut_whole (h : p.length = (sizes i).val) :
    cut sizes i (p ++ s) = p :: cut sizes (i + 1) s := by
  have hne : p ++ s ≠ [] := by
    intro heq
    have hpos := (sizes i).property.1
    rw [← h, (List.append_eq_nil_iff.1 heq).1] at hpos
    exact Nat.lt_irrefl 0 hpos
  rw [cut_cons hne, ← h, List.take_left, List.drop_left]

theorem cut_last (h : p.length = (sizes i).val) : cut sizes i p = [p] := by
  have hcut := cut_whole (s := []) h
  have hnil : cut sizes (i + 1) [] = [] := by rw [cut, if_pos rfl]
  rwa [List.append_nil, hnil] at hcut

end Cuts

section Fread
variable {hp : Packet} {f : List UInt8}

theorem datalen_fread (hp : Packet) (f : List UInt8) :
    (hp.fread f).datalen.toNat = (f.take (LENBUFFER - 1)).length := by
  have hle : (f.take (LENBUFFER - 1)).length < 2 ^ 16 :=
    Nat.lt_of_le_of_lt (List.length_take_le _ _) (by decide)
  exact (UInt16.toNat_ofNat' ..).trans (Nat.mod_eq_of_lt hle)

theorem datalen_fread_le (hp : Packet) (f : List UInt8) :
    (hp.fread f).datalen.toNat ≤ LENBUFFER := by
  rw [datalen_fread]
  exact Nat.le_trans (List.length_take_le _ _) (by decide)

/-- What the receiver writes of a packet is what `fread` read. -/
theorem take_fread (hp : Packet) (f : List UInt8) :
    (hp.fread f).buffer.take (hp.fread f).datalen.toNat = f.take (LENBUFFER - 1) := by
  rw [datalen_fread]
  exact List.take_left

end Fread

/-- A packet of the file that has come whole is written. -/
theorem receiveFile_fread {data : Memory} (f₀ : List UInt8) {hp : Packet}
    (htype : hp.type = FTP_TYPE_DATA) {f : List UInt8}
    (h : (data.recv piece).val = (htonp (hp.fread f)).bytes) :
    receiveFile data f₀ (piece :: pieces) =
      receiveFile (data.recv piece) (f₀ ++ f.take (LENBUFFER - 1)) pieces := by
  have hdata : (hp.fread f).type = FTP_TYPE_DATA := htype
  rw [receiveFile_data f₀ h hdata (datalen_fread_le hp f), take_fread]

/-- All that is sent for a file, to the last packet. -/
def sent (hp : Packet) (f : List UInt8) : List UInt8 :=
  (sendFile hp f).2 ++ sendEOT (sendFile hp f).1

theorem sendFile_fread (hp : Packet) (c f : List UInt8) :
    sendFile (hp.fread c) f = sendFile hp f := by
  rw [sendFile.eq_def, sendFile.eq_def hp]
  rfl

theorem sent_fread (hp : Packet) (c f : List UInt8) : sent (hp.fread c) f = sent hp f := by
  rw [sent, sendFile_fread, sent]

theorem sent_short (h : f.length < LENBUFFER - 1) :
    sent hp f = (htonp (hp.fread f)).bytes ++ sendEOT (hp.fread f) := by
  have hlast : sendFile hp f = (hp.fread f, (htonp (hp.fread f)).bytes) := by
    rw [sendFile, if_pos h]
  rw [sent, hlast]

theorem sent_long (h : ¬f.length < LENBUFFER - 1) :
    sent hp f = (htonp (hp.fread f)).bytes ++ sent hp (f.drop (LENBUFFER - 1)) := by
  have hnext : sendFile hp f = ((sendFile hp (f.drop (LENBUFFER - 1))).1,
      (htonp (hp.fread f)).bytes ++ (sendFile hp (f.drop (LENBUFFER - 1))).2) := by
    rw [sendFile, if_neg h]
    simp only [sendFile_fread]
  rw [sent, hnext, List.append_assoc]
  rfl

/-- A file that is sent and cut into whole packets is received. -/
theorem receiveFile_sent {sizes : Nat → ChunkSize} (h : ∀ i, (sizes i).val = 512)
    (data : Memory) (f₀ : List UInt8) {hp : Packet} (htype : hp.type = FTP_TYPE_DATA)
    (f : List UInt8) (i : Nat) :
    receiveFile data f₀ (cut sizes i (sent hp f)) = (.eot, f₀ ++ f) := by
  have hwhole : ∀ (p : Packet) j, (htonp p).bytes.length = (sizes j).val :=
    fun p j => (Packet.length_bytes _).trans (h j).symm
  have hrecv : ∀ (data : Memory) (p : Packet), (data.recv (htonp p).bytes).val = (htonp p).bytes :=
    fun data p => data.recv_full (Packet.length_bytes _)
  induction hp, f using sendFile.induct generalizing data f₀ i with
  | case1 hp f hlt =>
    have htake : f.take (LENBUFFER - 1) = f := List.take_of_length_le (Nat.le_of_lt hlt)
    have heot : cut sizes (i + 1) (sendEOT (hp.fread f)) = [sendEOT (hp.fread f)] :=
      cut_last (hwhole _ _)
    rw [sent_short hlt, cut_whole (hwhole _ _), receiveFile_fread f₀ htype (hrecv _ _), htake, heot]
    exact receiveFile_eot _ (hrecv _ _) rfl
  | case2 hp f hp' hlt ih =>
    have hrest : sent hp' (f.drop (LENBUFFER - 1)) = sent hp (f.drop (LENBUFFER - 1)) :=
      sent_fread hp f _
    rw [hrest] at ih
    rw [sent_long hlt, cut_whole (hwhole _ _), receiveFile_fread f₀ htype (hrecv _ _),
      ih _ _ htype, List.append_assoc, List.take_append_drop]

/-- The first eight bytes of a packet full of data. -/
def header (hp : Packet) : List UInt8 :=
  short (ntohs hp.conid) ++ (short (ntohs hp.type) ++ (short (ntohs hp.comid) ++ short (ntohs 503)))

theorem length_header (hp : Packet) : (header hp).length = 8 := by
  rw [header]
  simp only [List.length_append, short_length]

theorem bytes_fread (hp : Packet) (h : c.length = LENBUFFER - 1) :
    (htonp (hp.fread c)).bytes = header hp ++ (c ++ [0]) := by
  have htake : c.take (LENBUFFER - 1) = c := List.take_of_length_le (Nat.le_of_eq h)
  have hlen : (hp.fread c).datalen = 503 := by
    change UInt16.ofNat (c.take (LENBUFFER - 1)).length = 503
    rw [htake, h]
    rfl
  have hbuffer : (hp.fread c).buffer = c ++ [0] := by
    change c.take (LENBUFFER - 1) ++
      List.replicate (LENBUFFER - (c.take (LENBUFFER - 1)).length) 0 = c ++ [0]
    rw [htake, h]
    rfl
  change short (ntohs hp.conid) ++ (short (ntohs hp.type) ++ (short (ntohs hp.comid) ++
    (short (ntohs (hp.fread c).datalen) ++ (hp.fread c).buffer))) = _
  rw [hlen, hbuffer, header]
  simp only [List.append_assoc]

theorem sent_full (hp : Packet) (h : c.length = LENBUFFER - 1) :
    sent hp (c ++ f) = header hp ++ (c ++ [0]) ++ sent hp f := by
  have hlong : ¬(c ++ f).length < LENBUFFER - 1 := by
    rw [List.length_append, h]
    exact Nat.not_lt.2 (Nat.le_add_right _ _)
  have hfread : hp.fread (c ++ f) = hp.fread c := by
    rw [Packet.fread, Packet.fread, Packet.mk.injEq]
    simp only [← h, List.take_left, List.take_length, and_self]
  rw [sent_long hlong, hfread, bytes_fread hp h, ← h, List.drop_left]

/-- A piece that memory already begins with changes nothing. -/
theorem Memory.recv_same {data : Memory} (h : piece <+: data.val) : data.recv piece = data := by
  obtain ⟨rest, hrest⟩ := h
  apply Subtype.ext
  rw [val_recv, ← hrest, List.drop_left, hrest]
  exact List.take_of_length_le (Nat.le_of_eq data.property)

theorem receiveFile_exited {data : Memory} (f : List UInt8)
    (h : readShort (data.recv piece) 2 = 0) :
    receiveFile data f (piece :: pieces) = (.exited, f) := by
  have htype : (ntohp (Packet.ofBytes (data.recv piece))).type = 0 := by
    change ntohs (readShort (data.recv piece) 2) = 0
    rw [h]
    rfl
  rw [receiveFile]
  simp only [htype]
  rfl

def zeros : List UInt8 := List.replicate 503 0

/-- A block of data that is zeros up to the last byte. -/
def marked : List UInt8 := List.replicate 502 0 ++ [1]

def hp₀ : Packet := ⟨0, FTP_TYPE_DATA, 0, 0, List.replicate LENBUFFER 0, List.length_replicate⟩

/-- Memory after a packet of zeros. -/
def data₀ : Memory := ⟨(htonp (hp₀.fread zeros)).bytes, Packet.length_bytes _⟩

section Short
variable {sizes : Nat → ChunkSize}

theorem length_zeros : zeros.length = LENBUFFER - 1 := List.length_replicate

theorem length_marked : marked.length = LENBUFFER - 1 := by
  rw [marked, List.length_append, List.length_replicate]
  rfl

theorem header_hp₀ : header hp₀ = [0, 0, 0, 4, 0, 0, 1, 247] := by decide

theorem data₀_val : data₀.val = header hp₀ ++ (zeros ++ [0]) := bytes_fread hp₀ length_zeros

theorem zeros_eq : zeros = List.replicate 502 0 ++ [0] := List.replicate_succ'

theorem zeros_ne_marked : zeros ≠ marked := by
  intro h
  rw [zeros_eq, marked] at h
  exact absurd (List.append_cancel_left h) (by decide)

theorem ne_of_prefix {r : Outcome × List UInt8} (h : f₀ ++ f <+: r.2) (hlen : f.length = f'.length)
    (hne : f ≠ f') : r ≠ (.eot, f₀ ++ f') := by
  rintro rfl
  have heq := h.eq_of_length (by rw [List.length_append, List.length_append, hlen])
  exact hne (List.append_cancel_left heq)

/-- Whole packets of zeros leave memory as it is. -/
theorem receiveFile_zeros (f₀ f : List UInt8) (i n : Nat)
    (h : ∀ j, j < n → (sizes (i + j)).val = 512) :
    receiveFile data₀ f₀ (cut sizes i (sent hp₀ ((List.replicate n zeros).flatten ++ f))) =
      receiveFile data₀ (f₀ ++ (List.replicate n zeros).flatten)
        (cut sizes (i + n) (sent hp₀ f)) := by
  induction n generalizing f₀ i with
  | zero =>
    rw [List.replicate_zero, List.flatten_nil, List.nil_append, List.append_nil, Nat.add_zero]
  | succ n ih =>
    have hsize : data₀.val.length = (sizes i).val :=
      data₀.property.trans (h 0 (Nat.succ_pos n)).symm
    have hsent : sent hp₀ (zeros ++ ((List.replicate n zeros).flatten ++ f)) =
        data₀.val ++ sent hp₀ ((List.replicate n zeros).flatten ++ f) := by
      rw [sent_full hp₀ length_zeros, ← bytes_fread hp₀ length_zeros, data₀]
    have hrecv : data₀.recv data₀.val = data₀ := Memory.recv_same (List.prefix_refl _)
    have hrest : ∀ j, j < n → (sizes (i + 1 + j)).val = 512 := by
      intro j hj
      rw [Nat.add_right_comm]
      exact h (j + 1) (Nat.succ_lt_succ hj)
    have htake : zeros.take (LENBUFFER - 1) = zeros :=
      List.take_of_length_le (Nat.le_of_eq length_zeros)
    rw [List.replicate_succ, List.flatten_cons, List.append_assoc, hsent, cut_whole hsize,
      receiveFile_fread f₀ (f := zeros) rfl (congrArg Subtype.val hrecv), hrecv, htake,
      ih (f₀ ++ zeros) (i + 1) hrest, List.append_assoc, Nat.add_right_comm, Nat.add_assoc]

theorem sent_nil : ∃ rest, sent hp₀ [] = 0 :: 0 :: 0 :: 4 :: rest := by
  rw [sent_short (by decide : ([] : List UInt8).length < LENBUFFER - 1)]
  exact ⟨_, rfl⟩

/-- One byte late, the next piece is no packet, or the last packet is written again. -/
theorem receiveFile_late {data : Memory} (h : data.val = (htonp (hp₀.fread marked)).bytes)
    (f : List UInt8) (i : Nat) :
    receiveFile data f (cut sizes i (0 :: sent hp₀ [])) ≠ (.eot, f) := by
  obtain ⟨rest, hrest⟩ := sent_nil
  rw [hrest, cut_cons (List.cons_ne_nil _ _)]
  rcases Nat.lt_or_ge (sizes i).val 4 with hlt | hge
  · have hpre : (0 :: 0 :: 0 :: 0 :: 4 :: rest).take (sizes i).val <+: data.val := by
      have hthree : (0 :: 0 :: 0 :: 0 :: 4 :: rest).take (sizes i).val =
          [0, 0, 0].take (sizes i).val :=
        List.take_append_of_le_length
          (show (sizes i).val ≤ ([0, 0, 0] : List UInt8).length from Nat.le_of_lt_succ hlt)
      have hdata : data.val = [0, 0, 0] ++ (4 :: 0 :: 0 :: 1 :: 247 :: (marked ++ [0])) := by
        rw [h, bytes_fread hp₀ length_marked, header_hp₀]
        rfl
      rw [hthree, hdata]
      exact (List.take_prefix _ _).trans (List.prefix_append _ _)
    have hrecv := congrArg Subtype.val (Memory.recv_same hpre)
    have htake : marked.take (LENBUFFER - 1) = marked :=
      List.take_of_length_le (Nat.le_of_eq length_marked)
    rw [receiveFile_fread f (f := marked) rfl (hrecv.trans h), htake]
    intro heq
    have hlonger := (prefix_receiveFile _ _ _).length_le.trans_eq (congrArg (·.2.length) heq)
    rw [List.length_append, length_marked] at hlonger
    exact absurd hlonger (Nat.not_le.2 (Nat.lt_add_of_pos_right (by decide)))
  · obtain ⟨k, hk⟩ := Nat.exists_eq_add_of_le' hge
    have hread : readShort (data.recv ((0 :: 0 :: 0 :: 0 :: 4 :: rest).take (sizes i).val)) 2 =
        0 := by
      rw [hk]
      rfl
    rw [receiveFile_exited f hread]
    intro heq
    cases heq

/-- A packet that comes in pieces is not received as it was sent. -/
theorem receiveFile_marked (h : (sizes i).val ≠ 512) (f₀ : List UInt8) :
    receiveFile data₀ f₀ (cut sizes i (sent hp₀ marked)) ≠ (.eot, f₀ ++ marked) := by
  have hsent : sent hp₀ marked = header hp₀ ++ marked ++ (0 :: sent hp₀ []) := by
    have hfull := sent_full (f := []) hp₀ length_marked
    rw [List.append_nil] at hfull
    rw [hfull]
    simp only [List.append_assoc, List.cons_append, List.nil_append]
  have hlen : (header hp₀ ++ marked).length = 511 := by
    rw [List.length_append, length_header, length_marked]
    rfl
  have hne : sent hp₀ marked ≠ [] := by
    rw [hsent, header_hp₀]
    exact List.cons_ne_nil _ _
  rw [cut_cons hne, hsent]
  rcases Nat.lt_or_ge (sizes i).val 511 with hlt | hge
  · have hpre : (header hp₀ ++ marked ++ (0 :: sent hp₀ [])).take (sizes i).val <+: data₀.val := by
      have hlen' : (header hp₀ ++ List.replicate 502 0).length = 510 := by
        rw [List.length_append, length_header, List.length_replicate]
      have hdata : data₀.val = (header hp₀ ++ List.replicate 502 0) ++ [0, 0] := by
        rw [data₀_val, zeros_eq]
        simp only [List.append_assoc, List.cons_append, List.nil_append]
      rw [marked, ← List.append_assoc, List.append_assoc, List.take_append_of_le_length
        (by rw [hlen']; exact Nat.le_of_lt_succ hlt), hdata]
      exact (List.take_prefix _ _).trans (List.prefix_append _ _)
    have hrecv := Memory.recv_same hpre
    have htake : zeros.take (LENBUFFER - 1) = zeros :=
      List.take_of_length_le (Nat.le_of_eq length_zeros)
    rw [receiveFile_fread f₀ (f := zeros) rfl (congrArg Subtype.val hrecv), htake]
    exact ne_of_prefix (prefix_receiveFile _ _ _) (length_zeros.trans length_marked.symm)
      zeros_ne_marked
  · have heq : (sizes i).val = (header hp₀ ++ marked).length :=
      hlen ▸ Nat.le_antisymm (Nat.le_of_lt_succ (Nat.lt_of_le_of_ne (sizes i).property.2 h)) hge
    have hrecv : (data₀.recv (header hp₀ ++ marked)).val = (htonp (hp₀.fread marked)).bytes := by
      have hdrop : data₀.val.drop (header hp₀ ++ marked).length = [0] := by
        have hlen' : (header hp₀ ++ zeros).length = 511 := by
          rw [List.length_append, length_header, length_zeros]
          rfl
        rw [data₀_val, ← List.append_assoc, hlen, ← hlen', List.drop_left]
      rw [Memory.val_recv, hdrop, bytes_fread hp₀ length_marked, List.append_assoc]
      exact List.take_of_length_le (by
        rw [← List.append_assoc, List.length_append, hlen]
        exact Nat.le_refl _)
    have htake : marked.take (LENBUFFER - 1) = marked :=
      List.take_of_length_le (Nat.le_of_eq length_marked)
    rw [heq, List.take_left, List.drop_left, receiveFile_fread f₀ (f := marked) rfl hrecv, htake]
    exact receiveFile_late hrecv _ _

end Short

/-- A file arrives however the stream is cut just when every `recv` returns a whole packet. -/
theorem receive_file_iff (sizes : Nat → ChunkSize) :
    (∀ hp data f, receiveFile data [] (cut sizes 0 (stream hp f)) = (.eot, f)) ↔
      ∀ i, (sizes i).val = 512 := by
  constructor
  · intro h i
    induction i using Nat.strong_induction_on with
    | _ i ih =>
      by_contra hi
      have hwhole : ∀ j, j < i → (sizes (0 + j)).val = 512 :=
        fun j hj => (Nat.zero_add j).symm ▸ ih j hj
      have hfile := h hp₀ data₀ ((List.replicate i zeros).flatten ++ marked)
      have hzeros := receiveFile_zeros [] marked 0 i hwhole
      rw [List.nil_append, Nat.zero_add] at hzeros
      exact receiveFile_marked hi _ (hzeros.symm.trans hfile)
  · intro h hp data f
    exact receiveFile_sent h data [] rfl f 0

/-- Chunks of 256 bytes, after a packet of zeros. -/
theorem not_receive_file :
    receiveFile data₀ [] (cut (fun _ => ⟨256, by decide⟩) 0 (stream hp₀ marked)) ≠
      (.eot, marked) :=
  receiveFile_marked (by decide) []

end BigBox.Ftp
