import RePrime.Lib.Incremental
import RePrime.Lib.JsonRoundTrip
import RePrime.Lib.Utf8

/-!
# RePrime.SessionWorker.PrivateFraming

The frames between the daemon and a session worker: two lengths, a header in JSON and a payload. The
decoder keeps the chunks it was given as they came, with a cursor into the first of them.

* `slice_eq`, `consume_spec`: the chunks and the cursor are a queue of bytes.
* `push_eq`: a push is the reader `frameReader` on that queue.
* `decoder_emits`: encoded frames, cut into any chunks, are emitted in order, each as soon as it is
  whole; a stream that announces too long a frame fails when the announcement is whole.
* `pushAll_flatten`: where any bytes are cut makes no difference.
-/

namespace RePrime
namespace SessionWorker

open Json List
open Incremental

/-! ## Encoding -/

def framePrefixBytes : Nat := 8

def pendingCompactionMinHead : Nat := 32

structure PrivateFrameLimits where
  maxHeaderBytes : Nat
  maxPayloadBytes : Nat

structure PrivateFrame where
  header : Value
  payload : List UInt8

inductive FrameError where
  | length (name : String) (value : Nat)
  | emptyHeader
  | headerJson
  | routingHeader
  | outOfRange

/-- The text of the error. What `JSON.parse` says of a header, and `writeUInt32BE` of a number, is not modelled. -/
def FrameError.message (detail : String) : FrameError → String
  | .length name value => "Invalid private frame " ++ name ++ ": " ++ toString value
  | .emptyHeader => "Private frame header cannot be empty"
  | .headerJson => "Invalid private frame header JSON: " ++ detail
  | .routingHeader => "Invalid private frame routing header"
  | .outOfRange => detail

def assertFrameLength (name : String) (value maximum : Nat) : Except FrameError Unit :=
  if maximum < value then .error (.length name value) else .ok ()

def isObjectHeader : Value → Bool
  | .object _ => true
  | _ => false

/-- The four bytes of a number, the high one first. -/
def writeUInt32BE (value : Nat) : List UInt8 :=
  [UInt8.ofNat (value / 2 ^ 24), UInt8.ofNat (value / 2 ^ 16), UInt8.ofNat (value / 2 ^ 8),
    UInt8.ofNat value]

def readUInt32BE (bytes : List UInt8) (offset : Nat) : Nat :=
  2 ^ 24 * (bytes.getD offset 0).toNat + 2 ^ 16 * (bytes.getD (offset + 1) 0).toNat +
    2 ^ 8 * (bytes.getD (offset + 2) 0).toNat + (bytes.getD (offset + 3) 0).toNat

def encodePrivateFrame (header : Value) (payload : List UInt8) (limits : PrivateFrameLimits) :
    Except FrameError (List UInt8) :=
  let headerBuffer := Utf8.encode (stringify header)
  match assertFrameLength "header length" headerBuffer.length limits.maxHeaderBytes with
  | .error e => .error e
  | .ok _ =>
    match assertFrameLength "payload length" payload.length limits.maxPayloadBytes with
    | .error e => .error e
    | .ok _ =>
      if headerBuffer.length = 0 then .error .emptyHeader
      else if 2 ^ 32 ≤ headerBuffer.length ∨ 2 ^ 32 ≤ payload.length then .error .outOfRange
      else
        .ok (writeUInt32BE headerBuffer.length ++ writeUInt32BE payload.length ++ headerBuffer ++ payload)

/-! ## Decoding -/

structure PrivateFrameDecoder where
  pending : List (List UInt8)
  unreadBytes : Nat
  head : Nat
  offset : Nat

def PrivateFrameDecoder.new : PrivateFrameDecoder :=
  { pending := [], unreadBytes := 0, head := 0, offset := 0 }

def PrivateFrameDecoder.bufferedBytes (d : PrivateFrameDecoder) : Nat := d.unreadBytes

def subarray (chunk : List UInt8) (start stop : Nat) : List UInt8 := (chunk.take stop).drop start

/-- The parts of `[start, stop)` in chunks of which the first begins at `position`. -/
def sliceParts (start stop : Nat) : Nat → List (List UInt8) → List (List UInt8)
  | _, [] => []
  | position, usable :: rest =>
    if position < stop then
      let chunkEnd := position + usable.length
      if start < chunkEnd then
        subarray usable (max start position - position) (min stop chunkEnd - position) ::
          sliceParts start stop chunkEnd rest
      else sliceParts start stop chunkEnd rest
    else []

/-- `Buffer.concat` fills up with zeros, or cuts. -/
def concat (parts : List (List UInt8)) (total : Nat) : List UInt8 :=
  (parts.flatten ++ List.replicate total 0).take total

/-- The chunks that hold unread bytes, without the bytes that were consumed. -/
def PrivateFrameDecoder.usable (d : PrivateFrameDecoder) : List (List UInt8) :=
  match d.pending.drop d.head with
  | [] => []
  | chunk :: rest => chunk.drop d.offset :: rest

def PrivateFrameDecoder.slice (d : PrivateFrameDecoder) (start stop : Nat) : List UInt8 :=
  match sliceParts start stop 0 d.usable with
  | [part] => part
  | parts => concat parts (stop - start)

/-- The first chunk that is not spent, and the offset into it. -/
def skipSpent : List (List UInt8) → Nat → Nat → Nat × Nat
  | [], head, offset => (head, offset)
  | chunk :: rest, head, offset =>
    if chunk.length ≤ offset then skipSpent rest (head + 1) (offset - chunk.length)
    else (head, offset)

def PrivateFrameDecoder.consume (d : PrivateFrameDecoder) (count : Nat) : PrivateFrameDecoder :=
  let unreadBytes := d.unreadBytes - count
  let (head, offset) := skipSpent (d.pending.drop d.head) d.head (d.offset + count)
  if head = d.pending.length then { pending := [], unreadBytes, head := 0, offset := 0 }
  else if pendingCompactionMinHead ≤ head ∧ d.pending.length ≤ head * 2 then
    { pending := d.pending.drop head, unreadBytes, head := 0, offset }
  else { d with unreadBytes, head, offset }

section

variable (validateHeader : Value → Bool) (limits : PrivateFrameLimits)

/-- The frames at the front; the frames before one that fails are not returned. -/
def decodeFrames : Nat → PrivateFrameDecoder → Except FrameError (List PrivateFrame) × PrivateFrameDecoder
  | 0, d => (.ok [], d)
  | fuel + 1, d =>
    if d.unreadBytes < framePrefixBytes then (.ok [], d)
    else
      let lengths := d.slice 0 framePrefixBytes
      let headerLength := readUInt32BE lengths 0
      let payloadLength := readUInt32BE lengths 4
      match assertFrameLength "header length" headerLength limits.maxHeaderBytes with
      | .error e => (.error e, d)
      | .ok _ =>
        match assertFrameLength "payload length" payloadLength limits.maxPayloadBytes with
        | .error e => (.error e, d)
        | .ok _ =>
          if headerLength = 0 then (.error .emptyHeader, d)
          else
            let frameLength := framePrefixBytes + headerLength + payloadLength
            if d.unreadBytes < frameLength then (.ok [], d)
            else
              let payloadStart := framePrefixBytes + headerLength
              match parse (Utf8.decode (d.slice framePrefixBytes payloadStart)) with
              | none => (.error .headerJson, d)
              | some decoded =>
                if isObjectHeader decoded && validateHeader decoded then
                  let frame := { header := decoded, payload := d.slice payloadStart frameLength }
                  match decodeFrames fuel (d.consume frameLength) with
                  | (.ok frames, d) => (.ok (frame :: frames), d)
                  | (.error e, d) => (.error e, d)
                else (.error .routingHeader, d)

def PrivateFrameDecoder.push (d : PrivateFrameDecoder) (chunk : List UInt8) :
    Except FrameError (List PrivateFrame) × PrivateFrameDecoder :=
  let d :=
    if 0 < chunk.length then
      { d with pending := d.pending ++ [chunk], unreadBytes := d.unreadBytes + chunk.length }
    else d
  decodeFrames validateHeader limits (d.unreadBytes + 1) d

def PrivateFrameDecoder.finish (d : PrivateFrameDecoder) : Except String Unit :=
  if d.unreadBytes ≠ 0 then
    .error ("Private frame channel ended with " ++ toString d.unreadBytes ++ " incomplete bytes")
  else .ok ()

/-- The frames of chunks that come one after the other, up to the first failure. -/
def PrivateFrameDecoder.pushAll (d : PrivateFrameDecoder) :
    List (List UInt8) → Except FrameError (List PrivateFrame) × PrivateFrameDecoder
  | [] => (.ok [], d)
  | chunk :: chunks =>
    match d.push validateHeader limits chunk with
    | (.error e, d) => (.error e, d)
    | (.ok frames, d) =>
      match d.pushAll chunks with
      | (.ok more, d) => (.ok (frames ++ more), d)
      | (.error e, d) => (.error e, d)

end

/-! ## The chunks as a queue of bytes -/

def PrivateFrameDecoder.unread (d : PrivateFrameDecoder) : List UInt8 := d.usable.flatten

/-- The cursor is in the first chunk that is not spent. -/
structure PrivateFrameDecoder.Inv (d : PrivateFrameDecoder) : Prop where
  count : d.unreadBytes = d.unread.length
  head : d.head ≤ d.pending.length
  offset : ∀ chunk ∈ (d.pending.drop d.head).head?, d.offset < chunk.length
  empty : d.pending.drop d.head = [] → d.offset = 0

theorem flatten_sliceParts {start stop : Nat} (h : start ≤ stop) {chunks : List (List UInt8)} :
    ∀ position : Nat, (sliceParts start stop position chunks).flatten =
      subarray chunks.flatten (start - position) (stop - position) := by
  induction chunks with
  | nil =>
    intro position
    simp [sliceParts, subarray]
  | cons chunk chunks ih =>
    intro position
    rw [sliceParts]
    by_cases hstop : position < stop
    · rw [if_pos hstop]
      by_cases hstart : start < position + chunk.length
      · simp only [hstart, if_true]
        rw [flatten_cons, ih, subarray, subarray, subarray, flatten_cons, take_append, drop_append]
        congr 1
        · rw [show max start position - position = start - position by omega]
          by_cases hend : stop ≤ position + chunk.length
          · rw [Nat.min_eq_left hend]
          · rw [Nat.min_eq_right (by omega), Nat.add_sub_cancel_left, take_length,
              take_of_length_le (by omega)]
        · congr 1
          · rw [length_take]
            omega
          · congr 1
            omega
      · simp only [hstart, if_false]
        rw [ih, subarray, subarray, flatten_cons, take_append, drop_append,
          @List.drop_eq_nil_of_le _ (chunk.take (stop - position)) _ (by rw [length_take]; omega),
          nil_append]
        by_cases hend : stop ≤ position + chunk.length
        · rw [show stop - (position + chunk.length) = 0 by omega,
            show stop - position - chunk.length = 0 by omega]
          simp
        · congr 1
          · rw [length_take]
            omega
          · congr 1
            omega
    · rw [if_neg hstop, subarray, show stop - position = 0 by omega]
      simp

theorem length_subarray (chunk : List UInt8) {start stop : Nat} (h : stop ≤ chunk.length) :
    (subarray chunk start stop).length = stop - start := by
  rw [subarray, length_drop, length_take, Nat.min_eq_left h]

variable {d : PrivateFrameDecoder}

theorem slice_eq {start stop : Nat} (hle : start ≤ stop) (h : stop ≤ d.unread.length) :
    d.slice start stop = subarray d.unread start stop := by
  have hflat := @flatten_sliceParts start stop hle d.usable 0
  simp only [Nat.sub_zero] at hflat
  rw [PrivateFrameDecoder.slice]
  split
  · rename_i part hparts
    rw [hparts] at hflat
    simpa [PrivateFrameDecoder.unread] using hflat
  · rw [concat, hflat, ← PrivateFrameDecoder.unread]
    have hlen := @length_subarray d.unread start _ h
    rw [take_append_of_le_length (by omega), take_of_length_le (by omega)]

/-- What is left of chunks after the first bytes. -/
def dropBytes (n : Nat) : List (List UInt8) → List (List UInt8)
  | [] => []
  | chunk :: rest => chunk.drop n :: rest

theorem usable_eq (d : PrivateFrameDecoder) : d.usable = dropBytes d.offset (d.pending.drop d.head) := by
  rw [PrivateFrameDecoder.usable]
  cases d.pending.drop d.head with
  | nil | cons => rfl

variable {chunks : List (List UInt8)}

theorem skipSpent_spec : ∀ {head offset head' offset' : Nat},
    skipSpent chunks head offset = (head', offset') → offset ≤ chunks.flatten.length →
    ∃ n, head' = head + n ∧ n ≤ chunks.length ∧ (∀ chunk ∈ (chunks.drop n).head?, offset' < chunk.length) ∧
      (chunks.drop n = [] → offset' = 0) ∧
      (dropBytes offset' (chunks.drop n)).flatten = chunks.flatten.drop offset := by
  induction chunks with
  | nil =>
    intro head offset head' offset' h hle
    cases h
    refine ⟨0, rfl, Nat.le_refl _, by simp, fun _ => ?_, by simp [dropBytes]⟩
    simpa using hle
  | cons chunk chunks ih =>
    intro head offset head' offset' h hle
    rw [skipSpent] at h
    rw [flatten_cons, length_append] at hle
    split at h
    · rename_i hspent
      obtain ⟨n, rfl, hn, hoffset, hempty, hflat⟩ := ih h (by omega)
      refine ⟨n + 1, by omega, by simpa using hn, hoffset, hempty, ?_⟩
      rw [drop_succ_cons, hflat, flatten_cons, drop_append, drop_eq_nil_of_le hspent, nil_append]
    · rename_i hlive
      cases h
      refine ⟨0, rfl, Nat.zero_le _, ?_, by simp, ?_⟩
      · intro c hc
        cases hc
        omega
      · show (chunk.drop offset :: chunks).flatten = _
        rw [flatten_cons, flatten_cons, drop_append_of_le_length (by omega)]

theorem flatten_dropBytes {n : Nat}
    (h : ∀ chunk ∈ chunks.head?, n < chunk.length) :
    (dropBytes n chunks).flatten = chunks.flatten.drop n := by
  cases chunks with
  | nil => simp [dropBytes]
  | cons chunk chunks =>
    have hn := h chunk rfl
    rw [dropBytes, flatten_cons, flatten_cons, drop_append_of_le_length (by omega)]

theorem unread_eq (hd : d.Inv) : d.unread = (d.pending.drop d.head).flatten.drop d.offset := by
  rw [PrivateFrameDecoder.unread, usable_eq, flatten_dropBytes hd.offset]

theorem offset_le (hd : d.Inv) : d.offset ≤ (d.pending.drop d.head).flatten.length := by
  cases h : d.pending.drop d.head with
  | nil => simp [hd.empty h]
  | cons chunk chunks =>
    have hn := hd.offset chunk (by rw [h]; rfl)
    rw [flatten_cons, length_append]
    omega

theorem inv_new : PrivateFrameDecoder.new.Inv := by
  constructor
  · rfl
  · rfl
  · intro chunk h
    cases h
  · intro _
    rfl

theorem inv_of_usable {chunks : List (List UInt8)} {bytes : List UInt8}
    (hchunks : d.pending.drop d.head = chunks) (hhead : d.head ≤ d.pending.length)
    (hoffset : ∀ chunk ∈ chunks.head?, d.offset < chunk.length) (hempty : chunks = [] → d.offset = 0)
    (hflat : (dropBytes d.offset chunks).flatten = bytes) (hcount : d.unreadBytes = bytes.length) :
    d.Inv ∧ d.unread = bytes := by
  have hunread : d.unread = bytes := by
    rw [PrivateFrameDecoder.unread, usable_eq, hchunks, hflat]
  refine ⟨⟨?_, hhead, ?_, ?_⟩, hunread⟩
  · rw [hunread, hcount]
  · rw [hchunks]
    exact hoffset
  · rw [hchunks]
    exact hempty

theorem consume_spec (hd : d.Inv) {count : Nat} (h : count ≤ d.unread.length) :
    (d.consume count).Inv ∧ (d.consume count).unread = d.unread.drop count := by
  have hunread := unread_eq hd
  have hoffset := offset_le hd
  have hlen : d.unread.length = (d.pending.drop d.head).flatten.length - d.offset := by
    rw [hunread, length_drop]
  have hdrop : (d.pending.drop d.head).flatten.drop (d.offset + count) = d.unread.drop count := by
    rw [hunread, drop_drop]
  unfold PrivateFrameDecoder.consume
  cases hskip : skipSpent (d.pending.drop d.head) d.head (d.offset + count) with
  | mk head' offset' =>
    obtain ⟨n, hhead', hn, hoff, hemp, hflat⟩ := skipSpent_spec hskip (by omega)
    rw [drop_drop, ← hhead'] at hoff hemp hflat
    rw [hdrop] at hflat
    rw [length_drop] at hn
    have hle := hd.head
    have hcount : d.unreadBytes - count = (d.unread.drop count).length := by
      rw [length_drop, hd.count]
    simp only []
    split
    · rename_i hall
      have hnil : d.pending.drop head' = [] := by rw [hall, drop_length]
      rw [hnil] at hflat
      exact @inv_of_usable _ [] _ rfl (Nat.le_refl _) (by simp) (fun _ => rfl) hflat hcount
    · split
      · exact @inv_of_usable _ (d.pending.drop head') _ rfl (Nat.zero_le _) hoff hemp hflat hcount
      · exact @inv_of_usable _ (d.pending.drop head') _ rfl
          (by show head' ≤ d.pending.length; omega) hoff hemp hflat hcount

theorem receive_spec (hd : d.Inv) {chunk : List UInt8} (h : 0 < chunk.length) :
    PrivateFrameDecoder.Inv
        { d with pending := d.pending ++ [chunk], unreadBytes := d.unreadBytes + chunk.length } ∧
      PrivateFrameDecoder.unread
        { d with pending := d.pending ++ [chunk], unreadBytes := d.unreadBytes + chunk.length } =
          d.unread ++ chunk := by
  have hdrop : (d.pending ++ [chunk]).drop d.head = d.pending.drop d.head ++ [chunk] :=
    drop_append_of_le_length hd.head
  refine @inv_of_usable _ (d.pending.drop d.head ++ [chunk]) _ hdrop ?_ ?_ ?_ ?_ ?_
  · show d.head ≤ (d.pending ++ [chunk]).length
    rw [length_append]
    have hle := hd.head
    omega
  · intro c hc
    cases hp : d.pending.drop d.head with
    | nil =>
      rw [hp] at hc
      have hsame : chunk = c := Option.some.inj hc
      rw [hd.empty hp, ← hsame]
      exact h
    | cons first rest =>
      rw [hp] at hc
      cases hc
      exact hd.offset c (by rw [hp]; rfl)
  · simp
  · rw [PrivateFrameDecoder.unread, usable_eq]
    cases hp : d.pending.drop d.head with
    | nil => simp [dropBytes, hd.empty hp]
    | cons first rest => simp [dropBytes]
  · show d.unreadBytes + chunk.length = (d.unread ++ chunk).length
    rw [length_append, hd.count]

/-! ## The reader of the queue -/

section

variable (validateHeader : Value → Bool) (limits : PrivateFrameLimits)

def findFrame (bytes : List UInt8) : Incremental.Found UInt8 PrivateFrame FrameError :=
  if bytes.length < framePrefixBytes then .wait
  else
    let headerLength := readUInt32BE (subarray bytes 0 framePrefixBytes) 0
    let payloadLength := readUInt32BE (subarray bytes 0 framePrefixBytes) 4
    if limits.maxHeaderBytes < headerLength then .failure (.length "header length" headerLength)
    else if limits.maxPayloadBytes < payloadLength then
      .failure (.length "payload length" payloadLength)
    else if headerLength = 0 then .failure .emptyHeader
    else
      let payloadStart := framePrefixBytes + headerLength
      if bytes.length < payloadStart + payloadLength then .wait
      else
        match parse (Utf8.decode (subarray bytes framePrefixBytes payloadStart)) with
        | none => .failure .headerJson
        | some decoded =>
          if isObjectHeader decoded && validateHeader decoded then
            .item { header := decoded, payload := subarray bytes payloadStart (payloadStart + payloadLength) }
              (bytes.drop (payloadStart + payloadLength))
          else .failure .routingHeader

end

variable {bytes : List UInt8}

theorem subarray_append {stop : Nat} (h : stop ≤ bytes.length) (start : Nat)
    (more : List UInt8) : subarray (bytes ++ more) start stop = subarray bytes start stop := by
  rw [subarray, subarray, take_append_of_le_length h]

variable {validateHeader : Value → Bool} {limits : PrivateFrameLimits}

theorem findFrame_append (h : findFrame validateHeader limits bytes ≠ .wait)
    (more : List UInt8) : findFrame validateHeader limits (bytes ++ more) =
      match findFrame validateHeader limits bytes with
      | .item frame rest => .item frame (rest ++ more)
      | .wait => .wait
      | .failure e => .failure e := by
  unfold findFrame at h ⊢
  by_cases hprefix : bytes.length < framePrefixBytes
  · rw [if_pos hprefix] at h
    exact absurd rfl h
  · rw [if_neg hprefix] at h
    have hprefix' : ¬ (bytes ++ more).length < framePrefixBytes := by
      rw [length_append]
      omega
    rw [if_neg hprefix, if_neg hprefix', subarray_append (by omega)]
    simp only [] at h ⊢
    generalize readUInt32BE (subarray bytes 0 framePrefixBytes) 0 = headerLength at h ⊢
    generalize readUInt32BE (subarray bytes 0 framePrefixBytes) 4 = payloadLength at h ⊢
    split
    · rfl
    · rename_i hheader
      rw [if_neg hheader] at h
      split
      · rfl
      · rename_i hpayload
        rw [if_neg hpayload] at h
        split
        · rfl
        · rename_i hzero
          rw [if_neg hzero] at h
          by_cases hwhole : bytes.length < framePrefixBytes + headerLength + payloadLength
          · rw [if_pos hwhole] at h
            exact absurd rfl h
          · have hwhole' : ¬ (bytes ++ more).length <
                framePrefixBytes + headerLength + payloadLength := by
              rw [length_append]
              omega
            rw [if_neg hwhole, if_neg hwhole', subarray_append (by omega), subarray_append (by omega),
              drop_append_of_le_length (by omega)]
            split
            · rfl
            · split
              · rfl
              · rfl

theorem findFrame_shrinks {rest : List UInt8} {frame : PrivateFrame}
    (h : findFrame validateHeader limits bytes = .item frame rest) :
    ∃ count, 8 < count ∧ count ≤ bytes.length ∧ rest = bytes.drop count := by
  unfold findFrame at h
  split at h
  · cases h
  · simp only [] at h
    split at h
    · cases h
    · split at h
      · cases h
      · split at h
        · cases h
        · rename_i hzero
          split at h
          · cases h
          · rename_i hwhole
            split at h
            · cases h
            · split at h
              · cases h
                have hprefix : framePrefixBytes = 8 := rfl
                exact ⟨_, by omega, by omega, rfl⟩
              · cases h

/-- The reader of the queue of bytes. -/
def frameReader (validateHeader : Value → Bool) (limits : PrivateFrameLimits) :
    Incremental UInt8 PrivateFrame FrameError where
  find := findFrame validateHeader limits
  shrinks := by
    intro bytes frame rest h
    obtain ⟨count, hpos, hle, rfl⟩ := findFrame_shrinks h
    rw [length_drop]
    omega
  item_append := by
    intro bytes frame rest h more
    rw [findFrame_append (by rw [h]; simp), h]
  failure_append := by
    intro bytes e h more
    rw [findFrame_append (by rw [h]; simp), h]

theorem frameReader_find :
    (frameReader validateHeader limits).find = findFrame validateHeader limits := rfl

theorem decodeFrames_succ (hd : d.Inv) (fuel : Nat) :
    decodeFrames validateHeader limits (fuel + 1) d =
      match findFrame validateHeader limits d.unread with
      | .wait => (.ok [], d)
      | .failure e => (.error e, d)
      | .item frame rest =>
        match decodeFrames validateHeader limits fuel (d.consume (d.unread.length - rest.length)) with
        | (.ok frames, d) => (.ok (frame :: frames), d)
        | (.error e, d) => (.error e, d) := by
  rw [decodeFrames, findFrame, hd.count]
  by_cases hprefix : d.unread.length < framePrefixBytes
  · rw [if_pos hprefix, if_pos hprefix]
  · rw [if_neg hprefix, if_neg hprefix, slice_eq (Nat.zero_le _) (by omega)]
    simp only []
    generalize readUInt32BE (subarray d.unread 0 framePrefixBytes) 0 = headerLength
    generalize readUInt32BE (subarray d.unread 0 framePrefixBytes) 4 = payloadLength
    rw [assertFrameLength, assertFrameLength]
    by_cases hheader : limits.maxHeaderBytes < headerLength
    · rw [if_pos hheader, if_pos hheader]
    · rw [if_neg hheader, if_neg hheader]
      by_cases hpayload : limits.maxPayloadBytes < payloadLength
      · rw [if_pos hpayload, if_pos hpayload]
      · rw [if_neg hpayload, if_neg hpayload]
        by_cases hzero : headerLength = 0
        · rw [if_pos hzero, if_pos hzero]
        · simp only [hzero, if_false]
          by_cases hwhole : d.unread.length < framePrefixBytes + headerLength + payloadLength
          · rw [if_pos hwhole, if_pos hwhole]
          · rw [if_neg hwhole, if_neg hwhole, slice_eq (by omega) (by omega),
              slice_eq (by omega) (by omega)]
            split
            · rfl
            · split
              · simp only []
                rw [length_drop, show d.unread.length - (d.unread.length -
                  (framePrefixBytes + headerLength + payloadLength)) =
                    framePrefixBytes + headerLength + payloadLength by omega]
              · rfl

def outcome {α ε : Type} (items : List α) : Option ε → Except ε (List α)
  | none => .ok items
  | some e => .error e

theorem decodeFrames_eq {fuel : Nat} : ∀ {d : PrivateFrameDecoder}, d.Inv → d.unread.length < fuel →
    ∃ d', d'.Inv ∧ d'.unread = ((frameReader validateHeader limits).drain d.unread).rest ∧
      decodeFrames validateHeader limits fuel d =
        (outcome ((frameReader validateHeader limits).drain d.unread).items
          ((frameReader validateHeader limits).drain d.unread).failure, d') := by
  induction fuel with
  | zero =>
    intro d _ h
    cases h
  | succ fuel ih =>
    intro d hd hfuel
    rw [decodeFrames_succ hd]
    cases hfind : findFrame validateHeader limits d.unread with
    | wait =>
      rw [drain_wait (r := frameReader validateHeader limits) hfind]
      exact ⟨d, hd, rfl, rfl⟩
    | failure e =>
      rw [drain_failure (r := frameReader validateHeader limits) hfind]
      exact ⟨d, hd, rfl, rfl⟩
    | item frame rest =>
      obtain ⟨count, hpos, hle, rfl⟩ := findFrame_shrinks hfind
      have hcount : d.unread.length - (d.unread.drop count).length = count := by
        rw [length_drop]
        omega
      obtain ⟨hd', hunread⟩ := consume_spec hd hle
      have hfuel' : (d.consume count).unread.length < fuel := by
        rw [hunread, length_drop]
        omega
      obtain ⟨d'', hd'', hrest, hloop⟩ := ih hd' hfuel'
      rw [drain_item (r := frameReader validateHeader limits) hfind, ← hunread]
      refine ⟨d'', hd'', hrest, ?_⟩
      rw [hunread] at hloop ⊢
      simp only [hcount, hloop]
      show _ = (outcome _ ((frameReader validateHeader limits).drain (d.unread.drop count)).failure, d'')
      cases ((frameReader validateHeader limits).drain (d.unread.drop count)).failure with
      | none | some => rfl

/-- A push is the reader on what was left and the chunk. -/
theorem push_eq (hd : d.Inv) (chunk : List UInt8) :
    ∃ d', d'.Inv ∧ d'.unread = ((frameReader validateHeader limits).drain (d.unread ++ chunk)).rest ∧
      d.push validateHeader limits chunk =
        (outcome ((frameReader validateHeader limits).drain (d.unread ++ chunk)).items
          ((frameReader validateHeader limits).drain (d.unread ++ chunk)).failure, d') := by
  rw [PrivateFrameDecoder.push]
  by_cases hchunk : 0 < chunk.length
  · rw [if_pos hchunk]
    obtain ⟨hd', hunread⟩ := receive_spec hd hchunk
    rw [← hunread]
    exact decodeFrames_eq hd' (by rw [← hd'.count]; exact Nat.lt_succ_self _)
  · rw [if_neg hchunk]
    have hnil : chunk = [] := length_eq_zero_iff.1 (by omega)
    rw [hnil, append_nil]
    exact decodeFrames_eq hd (by rw [← hd.count]; exact Nat.lt_succ_self _)

/-- What chunks give does not depend on where they were cut, until one fails. -/
theorem pushAll_eq {chunks : List (List UInt8)} : ∀ {d : PrivateFrameDecoder}, d.Inv →
    (frameReader validateHeader limits).find d.unread = .wait →
    ∃ d', d'.Inv ∧ d.pushAll validateHeader limits chunks =
        (outcome ((frameReader validateHeader limits).drain (d.unread ++ chunks.flatten)).items
          ((frameReader validateHeader limits).drain (d.unread ++ chunks.flatten)).failure, d') ∧
      (((frameReader validateHeader limits).drain (d.unread ++ chunks.flatten)).failure = none →
        d'.unread = ((frameReader validateHeader limits).drain (d.unread ++ chunks.flatten)).rest) := by
  induction chunks with
  | nil =>
    intro d hd hwait
    rw [flatten_nil, append_nil, drain_wait hwait]
    exact ⟨d, hd, rfl, fun _ => rfl⟩
  | cons chunk chunks ih =>
    intro d hd hwait
    obtain ⟨d', hd', hrest, hpush⟩ := @push_eq d validateHeader limits hd chunk
    rw [PrivateFrameDecoder.pushAll, hpush, flatten_cons, ← append_assoc]
    cases hfail : ((frameReader validateHeader limits).drain (d.unread ++ chunk)).failure with
    | some e =>
      have hstays := failure_drain_append hfail chunks.flatten
      rw [hstays]
      exact ⟨d', hd', rfl, fun h => by cases h⟩
    | none =>
      have hwait' := find_rest (r := frameReader validateHeader limits) (d.unread ++ chunk)
      rw [hfail, ← hrest] at hwait'
      obtain ⟨d'', hd'', hall, hrest'⟩ := ih hd' hwait'
      have hmore := drain_append hfail chunks.flatten
      rw [← hrest] at hmore
      rw [hmore]
      refine ⟨d'', hd'', ?_, hrest'⟩
      simp only [outcome, hall]
      show _ = (outcome _ ((frameReader validateHeader limits).drain (d'.unread ++ chunks.flatten)).failure, d'')
      cases ((frameReader validateHeader limits).drain (d'.unread ++ chunks.flatten)).failure with
      | none | some => rfl

/-! ## Encoded frames -/

theorem readUInt32BE_write {n : Nat} (h : n < 2 ^ 32) (more : List UInt8) :
    readUInt32BE (writeUInt32BE n ++ more) 0 = n := by
  simp [readUInt32BE, writeUInt32BE]
  omega

theorem readUInt32BE_second (first bytes : List UInt8) (h : first.length = 4) :
    readUInt32BE (first ++ bytes) 4 = readUInt32BE bytes 0 := by
  have hget : ∀ i, (first ++ bytes).getD (4 + i) 0 = bytes.getD i 0 := by
    intro i
    rw [getD_eq_getElem?_getD, getElem?_append_right (by omega), h, Nat.add_sub_cancel_left,
      ← getD_eq_getElem?_getD]
  rw [readUInt32BE, hget 1, hget 2, hget 3, ← Nat.add_zero 4, hget 0]
  rfl

theorem encode_cases {header : Value} {payload encoding : List UInt8}
    (h : encodePrivateFrame header payload limits = .ok encoding) :
    ∃ headerBuffer, headerBuffer = Utf8.encode (stringify header) ∧
      encoding = writeUInt32BE headerBuffer.length ++ writeUInt32BE payload.length ++ headerBuffer ++ payload ∧
      headerBuffer.length ≤ limits.maxHeaderBytes ∧ payload.length ≤ limits.maxPayloadBytes ∧
      headerBuffer.length ≠ 0 ∧ headerBuffer.length < 2 ^ 32 ∧ payload.length < 2 ^ 32 := by
  refine ⟨_, rfl, ?_⟩
  unfold encodePrivateFrame assertFrameLength at h
  simp only [] at h
  by_cases hheader : limits.maxHeaderBytes < (Utf8.encode (stringify header)).length
  · rw [if_pos hheader] at h
    cases h
  · rw [if_neg hheader] at h
    by_cases hpayload : limits.maxPayloadBytes < payload.length
    · rw [if_pos hpayload] at h
      cases h
    · rw [if_neg hpayload] at h
      simp only [] at h
      split at h
      · cases h
      · rename_i hzero
        split at h
        · cases h
        · rename_i hrange
          cases h
          refine ⟨rfl, by omega, by omega, hzero, ?_, ?_⟩
          · omega
          · omega

theorem findFrame_of_lengths {rest : List UInt8} {headerLength payloadLength : Nat}
    (hbytes : bytes = writeUInt32BE headerLength ++ writeUInt32BE payloadLength ++ rest)
    (hheader : headerLength ≤ limits.maxHeaderBytes) (hpayload : payloadLength ≤ limits.maxPayloadBytes)
    (hzero : headerLength ≠ 0) (hrange : headerLength < 2 ^ 32) (hrange' : payloadLength < 2 ^ 32) :
    findFrame validateHeader limits bytes =
      if rest.length < headerLength + payloadLength then .wait
      else
        match parse (Utf8.decode (rest.take headerLength)) with
        | none => .failure .headerJson
        | some decoded =>
          if isObjectHeader decoded && validateHeader decoded then
            .item { header := decoded, payload := subarray rest headerLength (headerLength + payloadLength) }
              (rest.drop (headerLength + payloadLength))
          else .failure .routingHeader := by
  have hlen : bytes.length = 8 + rest.length := by
    rw [hbytes]
    simp [writeUInt32BE]
    omega
  have hfirst : subarray bytes 0 framePrefixBytes =
      writeUInt32BE headerLength ++ writeUInt32BE payloadLength := by
    rw [hbytes]
    rfl
  have hsub : ∀ start stop, subarray bytes (8 + start) (8 + stop) = subarray rest start stop := by
    intro start stop
    rw [hbytes, subarray, subarray, Nat.add_comm 8 stop, Nat.add_comm 8 start]
    rfl
  have hdrop : ∀ n, bytes.drop (8 + n) = rest.drop n := by
    intro n
    rw [hbytes, Nat.add_comm 8 n]
    rfl
  unfold findFrame
  rw [if_neg (by rw [hlen, framePrefixBytes]; omega), hfirst, readUInt32BE_write hrange,
    readUInt32BE_second _ _ rfl]
  have hsecond := readUInt32BE_write hrange' []
  rw [append_nil] at hsecond
  rw [hsecond]
  simp only []
  rw [if_neg (by omega), if_neg (by omega), if_neg hzero, framePrefixBytes]
  by_cases hwhole : rest.length < headerLength + payloadLength
  · rw [if_pos hwhole, if_pos (by omega)]
  · have htake : subarray bytes 8 (8 + headerLength) = rest.take headerLength := by
      have h := hsub 0 headerLength
      rw [Nat.add_zero] at h
      rw [h, subarray, drop_zero]
    rw [if_neg hwhole, if_neg (by omega), htake, Nat.add_assoc, hsub, hdrop]

theorem reads_of_encode {header : Value} {payload encoding : List UInt8}
    (h : encodePrivateFrame header payload limits = .ok encoding)
    (hobject : isObjectHeader header = true) (hvalid : validateHeader header = true) :
    (frameReader validateHeader limits).Reads { header, payload } encoding := by
  obtain ⟨headerBuffer, hbuffer, rfl, hheader, hpayload, hzero, hrange, hrange'⟩ := encode_cases h
  constructor
  · intro more
    rw [frameReader_find]
    have hsplit : writeUInt32BE headerBuffer.length ++ writeUInt32BE payload.length ++ headerBuffer ++
        payload ++ more = writeUInt32BE headerBuffer.length ++ writeUInt32BE payload.length ++
          (headerBuffer ++ (payload ++ more)) := by
      simp only [append_assoc]
    have hsub : subarray (headerBuffer ++ (payload ++ more)) headerBuffer.length
        (headerBuffer.length + payload.length) = payload := by
      rw [subarray, take_length_add_append, take_left, drop_left]
    have hdrop : (headerBuffer ++ (payload ++ more)).drop (headerBuffer.length + payload.length) = more := by
      rw [← append_assoc, ← length_append, drop_left]
    rw [findFrame_of_lengths hsplit hheader hpayload hzero hrange hrange',
      if_neg (by simp only [length_append]; omega), take_left, hsub, hdrop, hbuffer,
      Utf8.decode_encode, parse_stringify]
    simp [hobject, hvalid]
  · intro p hp hne
    rw [frameReader_find]
    obtain ⟨t, ht⟩ := hp
    have htlen : t ≠ [] := by
      rintro rfl
      rw [append_nil] at ht
      exact hne ht
    by_cases hshort : p.length < 8
    · rw [findFrame, framePrefixBytes, if_pos hshort]
    · have hlens : (writeUInt32BE headerBuffer.length ++ writeUInt32BE payload.length).length = 8 := rfl
      rw [append_assoc] at ht
      have hprefix : writeUInt32BE headerBuffer.length ++ writeUInt32BE payload.length <+: p :=
        prefix_of_prefix_length_le (prefix_append _ _) ⟨t, ht⟩ (by omega)
      obtain ⟨rest, rfl⟩ := hprefix
      rw [append_assoc, append_cancel_left_eq] at ht
      have hlen := congrArg List.length ht
      rw [length_append, length_append] at hlen
      have htpos := length_pos_of_ne_nil htlen
      rw [findFrame_of_lengths rfl hheader hpayload hzero hrange hrange', if_pos (by omega)]

theorem length_lt_of_wait (h : findFrame validateHeader limits bytes = .wait) :
    bytes.length < framePrefixBytes + limits.maxHeaderBytes + limits.maxPayloadBytes := by
  unfold findFrame at h
  split at h
  · omega
  · simp only [] at h
    split at h
    · cases h
    · split at h
      · cases h
      · split at h
        · cases h
        · split at h
          · omega
          · split at h
            · cases h
            · split at h
              · cases h
              · cases h

theorem find_nil : (frameReader validateHeader limits).find [] = .wait := rfl

theorem findFrame_short {bytes : List UInt8} (h : bytes.length < 8) :
    findFrame validateHeader limits bytes = .wait := by
  rw [findFrame, framePrefixBytes, if_pos h]

/-- The failure of lengths over the limits. -/
def tooLong (limits : PrivateFrameLimits) (lengths : List UInt8) : FrameError :=
  if limits.maxHeaderBytes < readUInt32BE lengths 0 then .length "header length" (readUInt32BE lengths 0)
  else .length "payload length" (readUInt32BE lengths 4)

theorem findFrame_tooLong {lengths : List UInt8} (hlen : lengths.length = 8)
    (h : limits.maxHeaderBytes < readUInt32BE lengths 0 ∨ limits.maxPayloadBytes < readUInt32BE lengths 4)
    (more : List UInt8) :
    findFrame validateHeader limits (lengths ++ more) = .failure (tooLong limits lengths) := by
  have hfirst : subarray (lengths ++ more) 0 framePrefixBytes = lengths := by
    rw [subarray, framePrefixBytes, ← hlen, take_left, drop_zero]
  rw [findFrame, tooLong, if_neg (by rw [length_append, framePrefixBytes]; omega), hfirst]
  by_cases hheader : limits.maxHeaderBytes < readUInt32BE lengths 0
  · rw [if_pos hheader, if_pos hheader]
  · rw [if_neg hheader, if_neg hheader, if_pos (h.resolve_left hheader)]

/-- Frames that a decoder with these limits is meant for, beside their encodings. -/
def Encoded (validateHeader : Value → Bool) (limits : PrivateFrameLimits)
    (frames : List (PrivateFrame × List UInt8)) : Prop :=
  ∀ e ∈ frames, encodePrivateFrame e.1.header e.1.payload limits = .ok e.2 ∧
    isObjectHeader e.1.header = true ∧ validateHeader e.1.header = true

theorem reads_of_encoded {frames : List (PrivateFrame × List UInt8)}
    (h : Encoded validateHeader limits frames) :
    ∀ e ∈ frames, (frameReader validateHeader limits).Reads e.1 e.2 := by
  intro e he
  obtain ⟨hencode, hobject, hvalid⟩ := h e he
  exact reads_of_encode hencode hobject hvalid

/-- Chunks of a part of the stream give the frames that are whole, and keep the rest. -/
theorem pushAll_encoded {frames : List (PrivateFrame × List UInt8)}
    (hframes : Encoded validateHeader limits frames) {chunks : List (List UInt8)}
    (hchunks : chunks.flatten <+: (frames.map Prod.snd).flatten) :
    ∃ before after d, frames = before ++ after ∧
      PrivateFrameDecoder.new.pushAll validateHeader limits chunks = (.ok (before.map Prod.fst), d) ∧
      chunks.flatten = (before.map Prod.snd).flatten ++ d.unread ∧
      d.bufferedBytes = d.unread.length ∧ (after = [] → d.unread = []) ∧
      ∀ e ∈ after.head?, d.unread.length < e.2.length := by
  obtain ⟨d, hd, hpush, hrest⟩ := @pushAll_eq _ _ chunks _ inv_new
    (@find_nil validateHeader limits)
  obtain ⟨before, after, q, hsplit, hbytes, hdrain, hnil, hhead⟩ :=
    drain_encoded (reads_of_encoded hframes) find_nil hchunks
  have hnew : PrivateFrameDecoder.new.unread ++ chunks.flatten = chunks.flatten := rfl
  rw [hnew, hdrain] at hpush hrest
  have hunread : d.unread = q := hrest rfl
  refine ⟨before, after, d, hsplit, hpush, ?_, hd.count, ?_, ?_⟩
  · rw [hunread]
    exact hbytes
  · rw [hunread]
    exact hnil
  · intro e he
    rw [hunread]
    obtain ⟨hpre, hne⟩ := hhead e he
    have hle := hpre.length_le
    have hlt : q.length ≠ e.2.length := fun hlen => hne (hpre.eq_of_length hlen)
    omega

/-- Chunks of a stream that announces too long a frame fail from the announcement on. -/
theorem pushAll_tooLong {frames : List (PrivateFrame × List UInt8)}
    (hframes : Encoded validateHeader limits frames) {lengths more : List UInt8}
    (hlen : lengths.length = 8)
    (hlong : limits.maxHeaderBytes < readUInt32BE lengths 0 ∨
      limits.maxPayloadBytes < readUInt32BE lengths 4)
    (hchunks : chunks.flatten <+: (frames.map Prod.snd).flatten ++ (lengths ++ more)) :
    if (frames.map Prod.snd).flatten.length + 8 ≤ chunks.flatten.length then
      (PrivateFrameDecoder.new.pushAll validateHeader limits chunks).1 = .error (tooLong limits lengths)
    else
      ∃ emitted, (PrivateFrameDecoder.new.pushAll validateHeader limits chunks).1 = .ok emitted := by
  obtain ⟨d, -, hpush, -⟩ := @pushAll_eq _ _ chunks _ inv_new
    (@find_nil validateHeader limits)
  have hnew : PrivateFrameDecoder.new.unread ++ chunks.flatten = chunks.flatten := rfl
  rw [hnew] at hpush
  rw [hpush]
  by_cases hpre : chunks.flatten <+: (frames.map Prod.snd).flatten
  · have hle := hpre.length_le
    obtain ⟨before, after, q, -, -, hdrain, -, -⟩ := drain_encoded (reads_of_encoded hframes) find_nil hpre
    rw [if_neg (by omega), hdrain]
    exact ⟨_, rfl⟩
  · have hlonger : (frames.map Prod.snd).flatten <+: chunks.flatten := by
      obtain h | h := prefix_or_prefix_of_prefix hchunks (prefix_append _ _)
      · exact absurd h hpre
      · exact h
    obtain ⟨q, hq⟩ := hlonger
    rw [← hq] at hchunks ⊢
    have hqpre : q <+: lengths ++ more := (prefix_append_right_inj _).1 hchunks
    rw [drain_of_reads (reads_of_encoded hframes), length_append]
    by_cases hwhole : 8 ≤ q.length
    · obtain ⟨t, rfl⟩ := prefix_of_prefix_length_le (prefix_append lengths more) hqpre (by omega)
      have hfind := @findFrame_tooLong validateHeader limits lengths hlen hlong t
      rw [if_pos (by omega), drain_failure (r := frameReader validateHeader limits) hfind]
      rfl
    · have hfind := @findFrame_short validateHeader limits q (by omega)
      rw [if_neg (by omega), drain_wait (r := frameReader validateHeader limits) hfind]
      exact ⟨_, rfl⟩

/-- Between chunks of any stream, less than one frame is kept. -/
theorem bufferedBytes_lt {emitted : List PrivateFrame}
    {d : PrivateFrameDecoder}
    (h : PrivateFrameDecoder.new.pushAll validateHeader limits chunks = (.ok emitted, d)) :
    d.bufferedBytes < framePrefixBytes + limits.maxHeaderBytes + limits.maxPayloadBytes := by
  obtain ⟨d', hd, hpush, hrest⟩ := @pushAll_eq _ _ chunks _ inv_new
    (@find_nil validateHeader limits)
  have hnew : PrivateFrameDecoder.new.unread ++ chunks.flatten = chunks.flatten := rfl
  rw [hnew] at hpush hrest
  rw [h] at hpush
  have hfind := find_rest (r := frameReader validateHeader limits) chunks.flatten
  cases hfail : ((frameReader validateHeader limits).drain chunks.flatten).failure with
  | some e =>
    rw [hfail] at hpush
    cases hpush
  | none =>
    rw [hfail] at hpush hfind
    have hsame : d = d' := (Prod.mk.inj hpush).2
    rw [← hrest hfail] at hfind
    rw [hsame, PrivateFrameDecoder.bufferedBytes, hd.count]
    exact length_lt_of_wait hfind

/-- Any bytes, encoded frames or not: what they are decoded to, or how they fail, does not depend on where they are cut,
and neither does whether the stream may end there. -/
theorem pushAll_flatten (validateHeader : Json.Value → Bool) (limits : PrivateFrameLimits)
    (chunks : List (List UInt8)) :
    let cut := PrivateFrameDecoder.new.pushAll validateHeader limits chunks
    let whole := PrivateFrameDecoder.new.pushAll validateHeader limits [chunks.flatten]
    cut.1 = whole.1 ∧ (cut.1.isOk = true → cut.2.finish = whole.2.finish) := by
  obtain ⟨d, hd, hcut, hrest⟩ := @pushAll_eq _ _ chunks _ inv_new (@find_nil validateHeader limits)
  obtain ⟨d', hd', hwhole, hrest'⟩ := @pushAll_eq _ _ [chunks.flatten] _ inv_new (@find_nil validateHeader limits)
  rw [flatten_singleton] at hwhole hrest'
  simp only [hcut, hwhole, true_and]
  cases hfail : ((frameReader validateHeader limits).drain
      (PrivateFrameDecoder.new.unread ++ chunks.flatten)).failure with
  | some e => exact nofun
  | none =>
    intro _
    rw [PrivateFrameDecoder.finish, PrivateFrameDecoder.finish, hd.count, hd'.count, hrest hfail, hrest' hfail]

/-- Encoded frames, cut into any chunks: each is emitted as soon as it is whole, in order and as it
was, and the bytes after it are kept. A stream that announces too long a frame fails in the push that
completes the announcement; before it, less than one frame was kept, as between all pushes. -/
theorem decoder_emits {validateHeader : Value → Bool} {limits : PrivateFrameLimits}
    {frames : List (PrivateFrame × List UInt8)} (hframes : Encoded validateHeader limits frames) :
    (∀ chunks : List (List UInt8), chunks.flatten <+: (frames.map Prod.snd).flatten →
      ∃ before after d, frames = before ++ after ∧
        PrivateFrameDecoder.new.pushAll validateHeader limits chunks = (.ok (before.map Prod.fst), d) ∧
        chunks.flatten = (before.map Prod.snd).flatten ++ d.unread ∧
        d.bufferedBytes = d.unread.length ∧ (after = [] → d.unread = []) ∧
        ∀ e ∈ after.head?, d.unread.length < e.2.length) ∧
    (∀ chunks : List (List UInt8), chunks.flatten = (frames.map Prod.snd).flatten →
      ∃ d, PrivateFrameDecoder.new.pushAll validateHeader limits chunks =
        (.ok (frames.map Prod.fst), d) ∧ d.finish = .ok ()) ∧
    (∀ (lengths more : List UInt8) (chunks : List (List UInt8)), lengths.length = 8 →
      limits.maxHeaderBytes < readUInt32BE lengths 0 ∨ limits.maxPayloadBytes < readUInt32BE lengths 4 →
      chunks.flatten <+: (frames.map Prod.snd).flatten ++ (lengths ++ more) →
      if (frames.map Prod.snd).flatten.length + 8 ≤ chunks.flatten.length then
        (PrivateFrameDecoder.new.pushAll validateHeader limits chunks).1 = .error (tooLong limits lengths)
      else
        ∃ emitted, (PrivateFrameDecoder.new.pushAll validateHeader limits chunks).1 = .ok emitted) ∧
    ∀ (chunks : List (List UInt8)) (emitted : List PrivateFrame) (d : PrivateFrameDecoder),
      PrivateFrameDecoder.new.pushAll validateHeader limits chunks = (.ok emitted, d) →
      d.bufferedBytes < framePrefixBytes + limits.maxHeaderBytes + limits.maxPayloadBytes := by
  refine ⟨fun chunks => pushAll_encoded hframes, ?_, ?_, fun chunks emitted d => bufferedBytes_lt⟩
  · intro chunks hchunks
    obtain ⟨before, after, d, hsplit, hpush, hbytes, hcount, hnil, hhead⟩ :=
      @pushAll_encoded _ _ _ hframes chunks (by rw [hchunks])
    have hafter : after = [] := by
      cases after with
      | nil => rfl
      | cons e after =>
        have hlt := hhead e rfl
        have hlen := congrArg List.length (hbytes.symm.trans hchunks)
        rw [hsplit] at hlen
        simp only [map_append, map_cons, flatten_append, flatten_cons, length_append] at hlen
        omega
    rw [hafter, append_nil] at hsplit
    refine ⟨d, by rw [hsplit]; exact hpush, ?_⟩
    have hzero : d.unreadBytes = 0 := hcount.trans (by rw [hnil hafter]; rfl)
    simp [PrivateFrameDecoder.finish, hzero]
  · intro lengths more chunks hlen hlong hchunks
    exact pushAll_tooLong hframes hlen hlong hchunks

/-- A frame with an empty object and one byte. -/
theorem decoder_emits_small :
    ∃ d, PrivateFrameDecoder.new.pushAll (fun _ => true) ⟨2, 1⟩ [[0, 0, 0], [2, 0, 0, 0, 1, 123], [125, 7]] =
      (.ok [⟨.object [], [7]⟩], d) ∧ d.finish = .ok () := by
  refine (@decoder_emits _ _ [(⟨.object [], [7]⟩, [0, 0, 0, 2, 0, 0, 0, 1, 123, 125, 7])] ?_).2.1
    [[0, 0, 0], [2, 0, 0, 0, 1, 123], [125, 7]] rfl
  intro e he
  cases mem_singleton.1 he
  exact ⟨rfl, rfl, rfl⟩

/-- A chunk is kept before its lengths are looked at, however long it is; and a header that is an array
is encoded and not decoded. -/
theorem decoder_keeps_chunk :
    (PrivateFrameDecoder.new.push (fun _ => true) ⟨4, 4⟩ ([0, 0, 0, 5, 0, 0, 0, 0] ++ List.replicate 92 0)).1.isOk =
        false ∧
      (PrivateFrameDecoder.new.push (fun _ => true) ⟨4, 4⟩
        ([0, 0, 0, 5, 0, 0, 0, 0] ++ List.replicate 92 0)).2.bufferedBytes = 100 ∧
      encodePrivateFrame (.array []) [] ⟨4, 4⟩ = .ok [0, 0, 0, 2, 0, 0, 0, 0, 91, 93] ∧
      (PrivateFrameDecoder.new.push (fun _ => true) ⟨4, 4⟩ [0, 0, 0, 2, 0, 0, 0, 0, 91, 93]).1.isOk = false := by
  refine ⟨?_, ?_, rfl, ?_⟩
  · decide
  · decide
  · decide

end SessionWorker
end RePrime
