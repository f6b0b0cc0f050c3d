import SleepyPenguin.Foundation.Words
import SleepyPenguin.Runtime.Value

-- The records of an inotify descriptor, as the kernel writes them and as the
-- extension walks them.
namespace SleepyPenguin.Inotify

open Foundation

-- One event of the kernel. A name is padded with at least one NUL.
structure Record where
  wd : Int
  mask : Nat
  cookie : Nat
  name : List Nat
  int : -0x80000000 ≤ wd ∧ wd < 0x80000000
  uint : mask < 0x100000000 ∧ cookie < 0x100000000
  short : name.length < 0x100000000
  padded : name ≠ [] → 0 ∈ name
  deriving DecidableEq

-- SleepyPenguin::Inotify::Event
structure Event where
  wd : Int
  mask : Nat
  cookie : Nat
  name : Option (List Nat)
  deriving DecidableEq, Repr

-- `sizeof(struct inotify_event)`
def header : Nat := 16

namespace Record

def size (r : Record) : Nat := header + r.name.length

-- The record in the buffer of read(2).
def encode (r : Record) : List Nat :=
  toLe 4 (ofInt32 r.wd) ++ toLe 4 r.mask ++ toLe 4 r.cookie ++ toLe 4 r.name.length ++ r.name

-- The event that a caller is to get for it.
def event (r : Record) : Event :=
  ⟨r.wd, r.mask, r.cookie, if r.name = [] then none else some (r.name.takeWhile (· ≠ 0))⟩

theorem length_encode (r : Record) : r.encode.length = r.size := by
  simp only [encode, size, header, List.length_append, length_toLe]

theorem size_pos (r : Record) : 0 < r.size := by
  unfold size header
  omega

end Record

-- A uint32_t field of the struct that `bytes` starts with.
def field (bytes : List Nat) (offset : Nat) : Nat := ofLe ((bytes.drop offset).take 4)

def eventLen (bytes : List Nat) : Nat := header + field bytes 12

-- The name is read as a C string.
def eventNew (bytes : List Nat) : Event :=
  let wd := toInt32 (field bytes 0)
  let mask := field bytes 4
  let cookie := field bytes 8
  let name := if field bytes 12 ≠ 0 then some ((bytes.drop header).takeWhile (· ≠ 0)) else none
  ⟨wd, mask, cookie, name⟩

-- `for (e = args->buf; e < end; )`, at most `steps` times.
def walk : Nat → List Nat → List Event
  | 0, _ => []
  | steps + 1, bytes =>
      if bytes = [] then []
      else eventNew bytes :: walk steps (bytes.drop (eventLen bytes))

-- Every event takes sixteen bytes or more.
def events (bytes : List Nat) : List Event := walk bytes.length bytes

section Walk

variable (r : Record) (rest : List Nat)

theorem field_encode : field (r.encode ++ rest) 0 = ofInt32 r.wd ∧ field (r.encode ++ rest) 4 = r.mask ∧
    field (r.encode ++ rest) 8 = r.cookie ∧ field (r.encode ++ rest) 12 = r.name.length := by
  have hpow : (0x100000000 : Nat) = 256 ^ 4 := by decide
  have hwd : ofLe (toLe 4 (ofInt32 r.wd)) = ofInt32 r.wd := ofLe_toLe (hpow ▸ ofInt32_lt r.wd)
  have hmask : ofLe (toLe 4 r.mask) = r.mask := ofLe_toLe (hpow ▸ r.uint.1)
  have hcookie : ofLe (toLe 4 r.cookie) = r.cookie := ofLe_toLe (hpow ▸ r.uint.2)
  have hlen : ofLe (toLe 4 r.name.length) = r.name.length := ofLe_toLe (hpow ▸ r.short)
  have hat : ∀ (before word after : List Nat), word.length = 4 →
      field (before ++ word ++ after) before.length = ofLe word := by
    intro before word after hword
    unfold field
    rw [List.append_assoc, List.drop_left, List.take_left' hword]
  refine ⟨?_, ?_, ?_, ?_⟩
  · have h := hat [] (toLe 4 (ofInt32 r.wd))
      (toLe 4 r.mask ++ toLe 4 r.cookie ++ toLe 4 r.name.length ++ r.name ++ rest) (length_toLe 4 _)
    simpa only [Record.encode, List.nil_append, List.append_assoc, List.length_nil, hwd] using h
  · have h := hat (toLe 4 (ofInt32 r.wd)) (toLe 4 r.mask)
      (toLe 4 r.cookie ++ toLe 4 r.name.length ++ r.name ++ rest) (length_toLe 4 _)
    simpa only [Record.encode, List.append_assoc, length_toLe, hmask] using h
  · have h := hat (toLe 4 (ofInt32 r.wd) ++ toLe 4 r.mask) (toLe 4 r.cookie)
      (toLe 4 r.name.length ++ r.name ++ rest) (length_toLe 4 _)
    simpa only [Record.encode, List.append_assoc, List.length_append, length_toLe, hcookie] using h
  · have h := hat (toLe 4 (ofInt32 r.wd) ++ toLe 4 r.mask ++ toLe 4 r.cookie) (toLe 4 r.name.length)
      (r.name ++ rest) (length_toLe 4 _)
    simpa only [Record.encode, List.append_assoc, List.length_append, length_toLe, hlen] using h

theorem eventLen_encode : eventLen (r.encode ++ rest) = r.size := by
  rw [eventLen, (field_encode r rest).2.2.2, Record.size]

theorem drop_encode : (r.encode ++ rest).drop (eventLen (r.encode ++ rest)) = rest := by
  rw [eventLen_encode, ← r.length_encode, List.drop_left]

-- A NUL inside the name ends the string before whatever follows it.
theorem takeWhile_padded {name : List Nat} (h : 0 ∈ name) :
    (name ++ rest).takeWhile (· ≠ 0) = name.takeWhile (· ≠ 0) := by
  induction name with
  | nil => cases h
  | cons byte name ih =>
      by_cases hzero : byte = 0
      · simp [hzero]
      · have hmem : 0 ∈ name := (List.mem_cons.mp h).resolve_left fun heq => hzero heq.symm
        simpa [hzero] using ih hmem

theorem eventNew_encode : eventNew (r.encode ++ rest) = r.event := by
  obtain ⟨hwd, hmask, hcookie, hlen⟩ := field_encode r rest
  have hname : (r.encode ++ rest).drop header = r.name ++ rest := by
    have hhead : (toLe 4 (ofInt32 r.wd) ++ toLe 4 r.mask ++ toLe 4 r.cookie ++
        toLe 4 r.name.length).length = header := by
      simp only [List.length_append, length_toLe, header]
    rw [Record.encode, List.append_assoc _ r.name rest, ← hhead, List.drop_left]
  simp only [eventNew, hwd, hmask, hcookie, hlen, hname, toInt32_ofInt32 r.int, Record.event]
  by_cases hnil : r.name = []
  · simp [hnil]
  · have hlen' : r.name.length ≠ 0 := fun hzero => hnil (List.eq_nil_of_length_eq_zero hzero)
    rw [if_pos hlen', if_neg hnil, takeWhile_padded rest (r.padded hnil)]

end Walk

theorem walk_encode (records : List Record) (steps : Nat) (h : records.length ≤ steps) :
    walk steps (records.flatMap Record.encode) = records.map Record.event := by
  induction records generalizing steps with
  | nil => cases steps <;> rfl
  | cons r records ih =>
      cases steps with
      | zero => cases h
      | succ steps =>
          have hne : r.encode ++ records.flatMap Record.encode ≠ [] := by
            intro hnil
            have hlen := congrArg List.length (List.append_eq_nil_iff.mp hnil).1
            have hpos := r.size_pos
            rw [r.length_encode] at hlen
            simp at hlen
            omega
          rw [List.flatMap_cons, walk, if_neg hne, eventNew_encode, drop_encode,
            ih steps (Nat.le_of_succ_le_succ h), List.map_cons]

theorem length_flatMap_encode (records : List Record) :
    records.length ≤ (records.flatMap Record.encode).length := by
  induction records with
  | nil => exact Nat.le_refl _
  | cons r records ih =>
      have hpos := r.size_pos
      rw [List.flatMap_cons, List.length_append, r.length_encode, List.length_cons]
      omega

-- What was written is what is read, whichever records come together.
theorem events_encode (records : List Record) :
    events (records.flatMap Record.encode) = records.map Record.event :=
  walk_encode records _ (length_flatMap_encode records)

-- A name of one letter, padded to sixteen bytes, before an event without one.
example : events (toLe 4 1 ++ toLe 4 256 ++ toLe 4 0 ++ toLe 4 16 ++ 97 :: List.replicate 15 0 ++
    toLe 4 (ofInt32 (-1)) ++ toLe 4 0x4000 ++ toLe 4 0 ++ toLe 4 0) =
    [⟨1, 256, 0, some [97]⟩, ⟨-1, 0x4000, 0, none⟩] := by decide

-- The longest run of whole records that the buffer holds.
def fitting : Nat → List Record → List Record
  | _, [] => []
  | room, r :: rest => if r.size ≤ room then r :: fitting (room - r.size) rest else []

theorem fitting_append_drop (room : Nat) (queue : List Record) :
    fitting room queue ++ queue.drop (fitting room queue).length = queue := by
  induction queue generalizing room with
  | nil => rfl
  | cons r rest ih =>
      unfold fitting
      split
      · simp only [List.cons_append, List.length_cons, List.drop_succ_cons, ih]
      · rfl

end SleepyPenguin.Inotify
