import SleepyPenguin.Foundation.Run
import SleepyPenguin.Runtime.Value

-- sendfile(2) where Linux's own is missing: a wrapper around the call of the
-- BSDs, and an emulation by (read|pread) and write.
namespace SleepyPenguin.Sendfile

open Foundation

-- The source file with its position, and what the destination has received.
structure World where
  content : List UInt8
  pos : Nat
  sent : List UInt8
  deriving DecidableEq, Repr

-- How an underlying call goes: it fails, or it transfers at most so many bytes.
inductive Outcome
  | fail (errno : Errno)
  | upTo (k : Nat)
  deriving DecidableEq, Repr

-- The `n` bytes of the source from `off` on, or what there is of them.
def World.slice (w : World) (off n : Nat) : List UInt8 := (w.content.drop off).take n

def pread (w : World) (n : Nat) (off : Int) : Outcome → Except Errno (List UInt8)
  | .fail errno => .error errno
  | .upTo k => if off < 0 then .error .EINVAL else .ok (w.slice off.toNat (min k n))

def read (w : World) (n : Nat) : Outcome → Except Errno (List UInt8) × World
  | .fail errno => (.error errno, w)
  | .upTo k =>
      let bytes := w.slice w.pos (min k n)
      (.ok bytes, { w with pos := w.pos + bytes.length })

def write (w : World) (bytes : List UInt8) : Outcome → Except Errno Nat × World
  | .fail errno => (.error errno, w)
  | .upTo k => (.ok (min k bytes.length), { w with sent := w.sent ++ bytes.take k })

-- `off ? pread(filefd, buf, max_read, *off) : read(filefd, buf, max_read)`
def readOrPread (w : World) (off : Option Int) (n : Nat) (outcome : Outcome) :
    Except Errno (List UInt8) × World :=
  match off with
  | some off => (pread w n off outcome, w)
  | none => read w n outcome

-- The loop around it, while it is interrupted. A missing outcome is a call
-- that gets all there is.
def readLoop (w : World) (off : Option Int) (n : Nat) : List Outcome → Except Errno (List UInt8) × World
  | [] => readOrPread w off n (.upTo n)
  | .fail .EINTR :: rest => readLoop w off n rest
  | outcome :: _ => readOrPread w off n outcome

-- What a substitute returns, and what it leaves in `*off`.
structure Result where
  ret : Except Errno Nat
  off : Option Int
  world : World

structure Calls where
  reads : List Outcome
  write : Outcome
  deriving DecidableEq, Repr

def maxRead (count : Nat) : Nat := if count > 16384 then 16384 else count

def preadSendfile (w : World) (off : Option Int) (count : Nat) (calls : Calls) : Result :=
  match readLoop w off (maxRead count) calls.reads with
  | (.error errno, w) => ⟨.error errno, off, w⟩
  | (.ok buf, w) =>
      if buf.length = 0 then ⟨.ok 0, off, w⟩
      else
        match write w buf calls.write with
        | (.error errno, w) => ⟨.error errno, off, w⟩
        | (.ok n, w) => ⟨.ok n, if n > 0 then off.map (· + (n : Int)) else off, w⟩

structure BsdOutcome where
  rc : Except Errno Unit
  upTo : Nat

-- sendfile(2) of FreeBSD: no bytes asked for means all up to the end of the
-- file, the bytes that were sent are counted on an error too, and the
-- position of the file is not used.
def sendfile (w : World) (offset : Int) (nbytes : Nat) (outcome : BsdOutcome) :
    Except Errno Unit × Nat × World :=
  if offset < 0 then (.error .EINVAL, 0, w)
  else
    let wanted := if nbytes = 0 then w.content.drop offset.toNat else w.slice offset.toNat nbytes
    let bytes := wanted.take outcome.upTo
    (outcome.rc, bytes.length, { w with sent := w.sent ++ bytes })

def linuxSendfile (w : World) (off : Option Int) (count : Nat) (outcome : BsdOutcome) : Result :=
  let offset := off.getD w.pos
  match sendfile w offset count outcome with
  | (rc, sbytes, w) =>
      if sbytes > 0 then
        match off with
        | some off => ⟨.ok sbytes, some (off + sbytes), w⟩
        | none => ⟨.ok sbytes, none, { w with pos := w.pos + sbytes }⟩
      else ⟨rc.map fun _ => 0, off, w⟩

-- What `__lsf` gives to Ruby.
inductive Lsf
  | bytes (n : Nat)
  | waitWritable
  | raised (errno : Errno)
  deriving DecidableEq, Repr

section Lsf

variable {O : Type} (substitute : World → Option Int → Nat → O → Result)

-- One more try after ENOMEM or ENOBUFS, with the garbage collected.
def lsf (w : World) (off : Option Int) (count : Nat) (first second : O) : Lsf × World :=
  match substitute w off count first with
  | ⟨.ok n, _, w⟩ => (.bytes n, w)
  | ⟨.error errno, off, w⟩ =>
      if errno = .EAGAIN then (.waitWritable, w)
      else if errno = .ENOMEM ∨ errno = .ENOBUFS then
        match substitute w off count second with
        | ⟨.ok n, _, w⟩ => (.bytes n, w)
        | ⟨.error errno, _, w⟩ => (if errno = .EAGAIN then .waitWritable else .raised errno, w)
      else (.raised errno, w)

structure Request (O : Type) where
  count : Nat
  first : O
  second : O

-- A caller that goes on where it is: with an offset of its own, which it
-- advances by what it is told was sent, or with the position of the file.
def transfer (st : World × Option Int) (request : Request O) : Option (World × Option Int) :=
  match lsf substitute st.1 st.2 request.count request.first request.second with
  | (.bytes n, w) => some (w, st.2.map (· + (n : Int)))
  | (_, w) => some (w, st.2)

end Lsf

-- Where a call starts.
def origin (w : World) (off : Option Int) : Int := off.getD w.pos

-- sendfile(2) of Linux.
structure Sent (w : World) (off : Option Int) (n : Nat) (off' : Option Int) (w' : World) : Prop where
  fits : n = 0 ∨ 0 ≤ origin w off ∧ (origin w off).toNat + n ≤ w.content.length
  content : w'.content = w.content
  sent : w'.sent = w.sent ++ w.slice (origin w off).toNat n
  pos : w'.pos = if off.isSome then w.pos else w.pos + n
  offset : off' = off.map (· + (n : Int))

def Contract (w : World) (off : Option Int) (count : Nat) (result : Result) : Prop :=
  match result.ret with
  | .ok n => n ≤ count ∧ Sent w off n result.off result.world
  | .error _ => result.off = off ∧ result.world = w

-- The first outcome of a read that is not an interruption.
def answered (n : Nat) : List Outcome → Outcome
  | [] => .upTo n
  | .fail .EINTR :: rest => answered n rest
  | outcome :: _ => outcome

def Outcome.takes : Outcome → Nat
  | .fail _ => 0
  | .upTo k => k

-- How many bytes read(2) gets, where `avail` are left.
def got (n avail : Nat) (reads : List Outcome) : Nat := min (min (answered n reads).takes n) avail

-- The emulation loses nothing: it reads at an offset, or it writes all that
-- it has read.
def WritesAll (w : World) (off : Option Int) (count : Nat) (calls : Calls) : Prop :=
  off.isSome ∨ got (maxRead count) (w.content.length - w.pos) calls.reads ≤ calls.write.takes

-- The BSD call is asked for no more than Linux would send.
def Bounded (w : World) (off : Option Int) (count : Nat) (outcome : BsdOutcome) : Prop :=
  count ≠ 0 ∨ outcome.upTo = 0 ∨ origin w off < 0 ∨ (w.content.length : Int) ≤ origin w off

section Emulation

variable {w : World} {count n : Nat} {off : Option Int}

theorem World.length_slice (w : World) (off n : Nat) :
    (w.slice off n).length = min n (w.content.length - off) := by
  simp [World.slice]

theorem maxRead_le (count : Nat) : maxRead count ≤ count := by
  unfold maxRead
  split <;> omega

theorem readLoop_eq (w : World) (off : Option Int) (n : Nat) (reads : List Outcome) :
    readLoop w off n reads = readOrPread w off n (answered n reads) := by
  fun_induction readLoop w off n reads with
  | case1 => rfl
  | case2 rest ih => exact ih
  | case3 outcome rest hne =>
      cases outcome with
      | upTo k => rfl
      | fail errno =>
          cases errno with
          | EINTR => exact absurd rfl hne
          | _ => rfl

-- With an offset the world is left alone, and what is read stands there.
theorem readOrPread_some (w : World) (n : Nat) (o : Int) (outcome : Outcome) :
    (∃ errno, readOrPread w (some o) n outcome = (.error errno, w)) ∨
    ∃ k, k ≤ n ∧ 0 ≤ o ∧ readOrPread w (some o) n outcome = (.ok (w.slice o.toNat k), w) := by
  cases outcome with
  | fail errno => exact Or.inl ⟨errno, rfl⟩
  | upTo k =>
      by_cases ho : o < 0
      · exact Or.inl ⟨.EINVAL, by simp only [readOrPread, pread, if_pos ho]⟩
      · refine Or.inr ⟨min k n, Nat.min_le_right k n, by omega, ?_⟩
        simp only [readOrPread, pread, if_neg ho]

-- Without one, the position moves over what is read.
theorem readOrPread_none (w : World) (n : Nat) (outcome : Outcome) :
    (∃ errno, outcome = .fail errno ∧ readOrPread w none n outcome = (.error errno, w)) ∨
    ∃ k, outcome.takes = k ∧ readOrPread w none n outcome =
      (.ok (w.slice w.pos (min k n)), { w with pos := w.pos + (w.slice w.pos (min k n)).length }) := by
  cases outcome with
  | fail errno => exact Or.inl ⟨errno, rfl, rfl⟩
  | upTo k => exact Or.inr ⟨k, rfl, rfl⟩

theorem take_slice (w : World) (off n k : Nat) :
    (w.slice off n).take k = w.slice off (min k (w.slice off n).length) := by
  have hmin : min k (min n (w.content.length - off)) ≤ n := by omega
  rw [World.length_slice, World.slice, World.slice, List.take_take, List.take_eq_take_iff]
  simp only [List.length_drop]
  omega

theorem sent_zero (w : World) (off : Option Int) : Sent w off 0 off w := by
  refine ⟨Or.inl rfl, rfl, ?_, ?_, ?_⟩
  · simp [World.slice]
  · simp
  · cases off <;> simp

-- A transfer that starts where it should and stays inside the file.
theorem sent_of_fits {off' : Option Int} {w' : World} (h0 : 0 ≤ origin w off)
    (hn : n ≤ w.content.length - (origin w off).toNat) (hc : w'.content = w.content)
    (hs : w'.sent = w.sent ++ w.slice (origin w off).toNat n)
    (hp : w'.pos = if off.isSome then w.pos else w.pos + n)
    (ho : off' = off.map (· + (n : Int))) : Sent w off n off' w' := by
  refine ⟨?_, hc, hs, hp, ho⟩
  by_cases hzero : n = 0
  · exact Or.inl hzero
  · exact Or.inr ⟨h0, by omega⟩

theorem preadSendfile_some (w : World) (o : Int) (count : Nat) (calls : Calls) :
    Contract w (some o) count (preadSendfile w (some o) count calls) := by
  simp only [preadSendfile, readLoop_eq]
  rcases readOrPread_some w (maxRead count) o (answered (maxRead count) calls.reads) with
    ⟨errno, hr⟩ | ⟨k, hk, ho, hr⟩
  · rw [hr]
    exact ⟨rfl, rfl⟩
  · rw [hr]
    have hlen := World.length_slice w o.toNat k
    have hcount := maxRead_le count
    by_cases hzero : (w.slice o.toNat k).length = 0
    · simp only [if_pos hzero]
      exact ⟨Nat.zero_le count, sent_zero w (some o)⟩
    · simp only [if_neg hzero]
      cases calls.write with
      | fail errno => exact ⟨rfl, rfl⟩
      | upTo j =>
          simp only [write]
          refine ⟨by omega, sent_of_fits ho ?_ rfl ?_ rfl ?_⟩
          · simp only [origin, Option.getD_some]
            omega
          · exact congrArg (w.sent ++ ·) (take_slice w o.toNat k j)
          · split
            · rfl
            · have hn : min j (w.slice o.toNat k).length = 0 := by omega
              simp [hn]

theorem preadSendfile_none (w : World) (count : Nat) (calls : Calls) :
    Contract w none count (preadSendfile w none count calls) ↔
      got (maxRead count) (w.content.length - w.pos) calls.reads ≤ calls.write.takes := by
  simp only [preadSendfile, readLoop_eq, got]
  rcases readOrPread_none w (maxRead count) (answered (maxRead count) calls.reads) with
    ⟨errno, ho, hr⟩ | ⟨k, hk, hr⟩
  · rw [hr, ho]
    have hcontract : Contract w none count ⟨.error errno, none, w⟩ := ⟨rfl, rfl⟩
    simp [hcontract, Outcome.takes]
  · rw [hr, hk]
    have hlen := World.length_slice w w.pos (min k (maxRead count))
    have hcount := maxRead_le count
    rw [← hlen]
    by_cases hzero : (w.slice w.pos (min k (maxRead count))).length = 0
    · simp only [hzero, ite_true, Nat.add_zero, Nat.zero_le, iff_true]
      exact ⟨Nat.zero_le count, sent_zero w none⟩
    · simp only [if_neg hzero]
      cases calls.write with
      | fail errno =>
          simp only [write, Outcome.takes, Nat.le_zero, hzero, iff_false]
          intro hcontract
          have hpos : w.pos + (w.slice w.pos (min k (maxRead count))).length = w.pos :=
            congrArg World.pos hcontract.2
          omega
      | upTo j =>
          simp only [write, Outcome.takes]
          constructor
          · intro hcontract
            have hpos := hcontract.2.pos
            simp only [Option.isSome_none, Bool.false_eq_true, ite_false] at hpos
            omega
          · intro hj
            have hn : min j (w.slice w.pos (min k (maxRead count))).length =
                (w.slice w.pos (min k (maxRead count))).length := Nat.min_eq_right hj
            have hsent := take_slice w w.pos (min k (maxRead count)) j
            rw [hn] at hsent ⊢
            refine ⟨by omega, sent_of_fits (Int.natCast_nonneg _) ?_ rfl ?_ rfl ?_⟩
            · simp only [origin, Option.getD_none, Int.toNat_natCast]
              omega
            · exact congrArg (w.sent ++ ·) hsent
            · split <;> rfl

theorem preadSendfile_contract (w : World) (off : Option Int) (count : Nat) (calls : Calls) :
    Contract w off count (preadSendfile w off count calls) ↔ WritesAll w off count calls := by
  cases off with
  | some o => simp [WritesAll, preadSendfile_some]
  | none => simp [WritesAll, preadSendfile_none]

end Emulation

section Bsd

variable {w : World} {off : Option Int} {count n : Nat} {outcome : BsdOutcome}

-- What the wrapper does once the call has sent `n` bytes of the file.
theorem linuxSendfile_of_sent {rc : Except Errno Unit} (h0 : 0 ≤ origin w off)
    (hn : n ≤ w.content.length - (origin w off).toNat)
    (h : sendfile w (origin w off) count outcome =
      (rc, n, { w with sent := w.sent ++ w.slice (origin w off).toNat n })) :
    Contract w off count (linuxSendfile w off count outcome) ↔ n ≤ count := by
  have hcall : sendfile w (off.getD w.pos) count outcome =
      (rc, n, { w with sent := w.sent ++ w.slice (origin w off).toNat n }) := h
  simp only [linuxSendfile, hcall]
  by_cases hpos : n > 0
  · simp only [if_pos hpos]
    cases off with
    | some o =>
        exact ⟨fun hcontract => hcontract.1, fun hle => ⟨hle, sent_of_fits h0 hn rfl rfl rfl rfl⟩⟩
    | none =>
        exact ⟨fun hcontract => hcontract.1, fun hle => ⟨hle, sent_of_fits h0 hn rfl rfl rfl rfl⟩⟩
  · obtain rfl : n = 0 := by omega
    have hworld : ({ w with sent := w.sent ++ w.slice (origin w off).toNat 0 } : World) = w := by
      simp [World.slice]
    simp only [hworld, gt_iff_lt, Nat.lt_irrefl, ite_false, Nat.zero_le, iff_true]
    cases rc with
    | error errno => exact ⟨rfl, rfl⟩
    | ok value => exact ⟨Nat.zero_le count, sent_zero w off⟩

theorem linuxSendfile_contract (w : World) (off : Option Int) (count : Nat) (outcome : BsdOutcome) :
    Contract w off count (linuxSendfile w off count outcome) ↔ Bounded w off count outcome := by
  by_cases h0 : origin w off < 0
  · have hcall : sendfile w (off.getD w.pos) count outcome = (.error .EINVAL, 0, w) := by
      simp only [sendfile, if_pos (show off.getD (w.pos : Int) < 0 from h0)]
    have hcontract : Contract w off count (linuxSendfile w off count outcome) := by
      simp only [linuxSendfile, hcall, gt_iff_lt, Nat.lt_irrefl, ite_false]
      exact ⟨rfl, rfl⟩
    simp [hcontract, Bounded, h0]
  · by_cases hcount : count = 0
    · subst hcount
      let start := (origin w off).toNat
      have hall : (w.content.drop start).take outcome.upTo =
          w.slice start (min outcome.upTo (w.content.length - start)) := by
        rw [World.slice, List.take_eq_take_iff, List.length_drop]
        omega
      have hlen : ((w.content.drop start).take outcome.upTo).length =
          min outcome.upTo (w.content.length - start) := by simp
      have hcall : sendfile w (origin w off) 0 outcome =
          (outcome.rc, min outcome.upTo (w.content.length - start),
            { w with sent := w.sent ++ w.slice start (min outcome.upTo (w.content.length - start)) }) := by
        simp only [sendfile, if_neg h0, ite_true]
        rw [hlen, hall]
      rw [linuxSendfile_of_sent (by omega) (by omega) hcall]
      simp only [Bounded, ne_eq, not_true_eq_false, false_or]
      omega
    · let start := (origin w off).toNat
      have htake := take_slice w start count outcome.upTo
      have hlen : ((w.slice start count).take outcome.upTo).length =
          min outcome.upTo (w.slice start count).length := by simp
      have hsize := World.length_slice w start count
      have hcall : sendfile w (origin w off) count outcome =
          (outcome.rc, min outcome.upTo (w.slice start count).length,
            { w with sent :=
                w.sent ++ w.slice start (min outcome.upTo (w.slice start count).length) }) := by
        simp only [sendfile, if_neg h0, if_neg hcount]
        rw [hlen, htake]
      rw [linuxSendfile_of_sent (by omega) (by omega) hcall]
      simp only [Bounded, ne_eq, hcount, not_false_eq_true, true_or, iff_true]
      omega

end Bsd

section Transfer

variable {O : Type} {substitute : World → Option Int → Nat → O → Result}
  {condition : World → Option Int → Nat → O → Prop}

-- Everything between where the caller was and where it is has been sent,
-- once and in order.
structure Streamed (st st' : World × Option Int) : Prop where
  content : st'.1.content = st.1.content
  le : origin st.1 st.2 ≤ origin st'.1 st'.2
  sent : st'.1.sent = st.1.sent ++
    st.1.slice (origin st.1 st.2).toNat (origin st'.1 st'.2 - origin st.1 st.2).toNat
  fits : origin st'.1 st'.2 = origin st.1 st.2 ∨
    0 ≤ origin st.1 st.2 ∧ origin st'.1 st'.2 ≤ st.1.content.length
  pos : st.2.isSome → st'.1.pos = st.1.pos
  kind : st'.2.isSome = st.2.isSome

theorem Streamed.refl (st : World × Option Int) : Streamed st st := by
  refine ⟨rfl, Int.le_refl _, ?_, Or.inl rfl, fun _ => rfl, rfl⟩
  simp [World.slice]

theorem slice_append (w : World) (off n k : Nat) :
    w.slice off n ++ w.slice (off + n) k = w.slice off (n + k) := by
  rw [World.slice, World.slice, World.slice, List.take_add, List.drop_drop]

theorem Streamed.trans {st st' st'' : World × Option Int} (h : Streamed st st')
    (h' : Streamed st' st'') : Streamed st st'' := by
  have hle := h.le
  have hle' := h'.le
  refine ⟨h'.content.trans h.content, Int.le_trans h.le h'.le, ?_, ?_,
    fun hs => (h'.pos (h.kind ▸ hs)).trans (h.pos hs), h'.kind.trans h.kind⟩
  · have hslice : ∀ off n, st'.1.slice off n = st.1.slice off n := by
      intro off n
      rw [World.slice, World.slice, h.content]
    rw [h'.sent, h.sent, hslice, List.append_assoc]
    rcases h'.fits with heq | ⟨h0, _⟩
    · simp [heq, World.slice]
    · rcases h.fits with heq | ⟨h0', _⟩
      · simp [heq, World.slice]
      · have hfrom : (origin st'.1 st'.2).toNat = (origin st.1 st.2).toNat +
            (origin st'.1 st'.2 - origin st.1 st.2).toNat := by omega
        have hto : (origin st''.1 st''.2 - origin st.1 st.2).toNat =
            (origin st'.1 st'.2 - origin st.1 st.2).toNat +
              (origin st''.1 st''.2 - origin st'.1 st'.2).toNat := by omega
        rw [hfrom, slice_append, ← hto]
  · rcases h'.fits with heq | ⟨h0, hlen⟩
    · rw [heq]
      exact h.fits
    · rw [h.content] at hlen
      rcases h.fits with heq | ⟨h0', _⟩
      · exact Or.inr ⟨heq ▸ h0, hlen⟩
      · exact Or.inr ⟨h0', hlen⟩

theorem Sent.streamed {w w' : World} {off off' : Option Int} {n : Nat} (h : Sent w off n off' w') :
    Streamed (w, off) (w', off') := by
  have horigin : origin w' off' = origin w off + n := by
    cases off with
    | some o => simp [origin, h.offset]
    | none =>
        have hpos := h.pos
        simp only [Option.isSome_none, Bool.false_eq_true, ite_false] at hpos
        simp [origin, h.offset, hpos]
  refine ⟨h.content, ?_, ?_, ?_, fun hs => ?_, ?_⟩
  · simp only [horigin]
    omega
  · have hn : (origin w off + n - origin w off).toNat = n := by omega
    simp only [horigin, hn]
    exact h.sent
  · rcases h.fits with rfl | ⟨h0, hlen⟩
    · exact Or.inl (by simp [horigin])
    · refine Or.inr ⟨h0, ?_⟩
      simp only [horigin]
      omega
  · have hpos := h.pos
    rwa [if_pos hs] at hpos
  · rw [h.offset]
    cases off <;> rfl

-- `__lsf` on a substitute that keeps to the contract.
theorem lsf_contract {w : World} {off : Option Int} {count : Nat} {first second : O}
    (hfirst : Contract w off count (substitute w off count first))
    (hsecond : Contract w off count (substitute w off count second)) :
    (∃ n off' w', lsf substitute w off count first second = (.bytes n, w') ∧ n ≤ count ∧
      Sent w off n off' w') ∨
    lsf substitute w off count first second = (.waitWritable, w) ∨
    ∃ errno, lsf substitute w off count first second = (.raised errno, w) := by
  unfold lsf
  rcases hr : substitute w off count first with ⟨errno | n, off₁, w₁⟩
  · rw [hr] at hfirst
    obtain ⟨rfl, rfl⟩ : off₁ = off ∧ w₁ = w := hfirst
    simp only
    by_cases hagain : errno = .EAGAIN
    · exact Or.inr (Or.inl (by rw [if_pos hagain]))
    · rw [if_neg hagain]
      by_cases hmem : errno = .ENOMEM ∨ errno = .ENOBUFS
      · rw [if_pos hmem]
        rcases hr' : substitute w₁ off₁ count second with ⟨errno' | n, off₂, w₂⟩
        · rw [hr'] at hsecond
          obtain ⟨rfl, rfl⟩ : off₂ = off₁ ∧ w₂ = w₁ := hsecond
          by_cases hagain' : errno' = .EAGAIN
          · exact Or.inr (Or.inl (by simp only [if_pos hagain']))
          · exact Or.inr (Or.inr ⟨errno', by simp only [if_neg hagain']⟩)
        · rw [hr'] at hsecond
          exact Or.inl ⟨n, off₂, w₂, rfl, hsecond⟩
      · exact Or.inr (Or.inr ⟨errno, by rw [if_neg hmem]⟩)
  · rw [hr] at hfirst
    exact Or.inl ⟨n, off₁, w₁, rfl, hfirst⟩

-- Both tries of a request meet the condition.
def Meets (condition : World → Option Int → Nat → O → Prop) (st : World × Option Int)
    (request : Request O) : Prop :=
  condition st.1 st.2 request.count request.first ∧ condition st.1 st.2 request.count request.second

theorem transfer_streamed
    (hcontract : ∀ w off count o, condition w off count o → Contract w off count (substitute w off count o))
    {st st' : World × Option Int} {request : Request O} (hm : Meets condition st request)
    (h : transfer substitute st request = some st') : Streamed st st' := by
  obtain ⟨w, off⟩ := st
  simp only [transfer] at h
  rcases lsf_contract (hcontract _ _ _ _ hm.1) (hcontract _ _ _ _ hm.2) with
    ⟨n, off', w', hr, _, hs⟩ | hr | ⟨errno, hr⟩
  · rw [hr] at h
    cases h
    exact hs.offset ▸ hs.streamed
  · rw [hr] at h
    cases h
    exact Streamed.refl _
  · rw [hr] at h
    cases h
    exact Streamed.refl _

theorem run_streamed
    (hcontract : ∀ w off count o, condition w off count o → Contract w off count (substitute w off count o))
    {st : World × Option Int} {requests : List (Request O)}
    (hg : Guarded (transfer substitute) (Meets condition) st requests) :
    Visits (transfer substitute) (Streamed st) st requests :=
  visits_of_guarded (Streamed st) (Streamed st) (fun _ h => h)
    (fun _ _ _ hs hm h => hs.trans (transfer_streamed hcontract hm h)) (Streamed.refl st) hg

end Transfer

-- Each substitute keeps to the contract of Linux on exactly the calls that
-- meet its condition, and a caller that retries gets every byte once.
theorem substitutes_refine (w : World) (off : Option Int) (count : Nat) (calls : Calls)
    (outcome : BsdOutcome)
    (requests : List (Request Calls)) (requests' : List (Request BsdOutcome)) :
    (Contract w off count (preadSendfile w off count calls) ↔ WritesAll w off count calls) ∧
    (Contract w off count (linuxSendfile w off count outcome) ↔ Bounded w off count outcome) ∧
    (Guarded (transfer preadSendfile) (Meets WritesAll) (w, off) requests →
      Visits (transfer preadSendfile) (Streamed (w, off)) (w, off) requests) ∧
    (Guarded (transfer linuxSendfile) (Meets Bounded) (w, off) requests' →
      Visits (transfer linuxSendfile) (Streamed (w, off)) (w, off) requests') :=
  ⟨preadSendfile_contract w off count calls, linuxSendfile_contract w off count outcome,
    fun hg => run_streamed (fun w off count o => (preadSendfile_contract w off count o).mpr) hg,
    fun hg => run_streamed (fun w off count o => (linuxSendfile_contract w off count o).mpr) hg⟩

-- Two requests for five bytes, the first of them put off by the socket.
theorem substitutes_refine_retry :
    Visits (transfer linuxSendfile) (Streamed (⟨[1, 2, 3, 4, 5], 0, []⟩, none))
      (⟨[1, 2, 3, 4, 5], 0, []⟩, none)
      [⟨5, ⟨.error .EAGAIN, 2⟩, ⟨.ok (), 5⟩⟩, ⟨5, ⟨.ok (), 5⟩, ⟨.ok (), 5⟩⟩] := by
  refine (substitutes_refine ⟨[1, 2, 3, 4, 5], 0, []⟩ none 5 ⟨[.upTo 5], .upTo 5⟩ ⟨.ok (), 5⟩ [] _).2.2.2
    ⟨⟨Or.inl (by decide), Or.inl (by decide)⟩, fun st _ => ?_⟩
  exact ⟨⟨Or.inl (by decide), Or.inl (by decide)⟩, fun _ _ => trivial⟩

-- A write of two bytes out of five: the other three are lost. No bytes asked
-- for: the whole file is sent.
theorem substitutes_lose :
    ((preadSendfile ⟨[1, 2, 3, 4, 5], 0, []⟩ none 5 ⟨[.upTo 5], .upTo 2⟩).world =
        ⟨[1, 2, 3, 4, 5], 5, [1, 2]⟩ ∧
      ¬Contract ⟨[1, 2, 3, 4, 5], 0, []⟩ none 5
        (preadSendfile ⟨[1, 2, 3, 4, 5], 0, []⟩ none 5 ⟨[.upTo 5], .upTo 2⟩)) ∧
    ((linuxSendfile ⟨[1, 2, 3, 4, 5], 0, []⟩ none 0 ⟨.ok (), 5⟩).world =
        ⟨[1, 2, 3, 4, 5], 5, [1, 2, 3, 4, 5]⟩ ∧
      ¬Contract ⟨[1, 2, 3, 4, 5], 0, []⟩ none 0
        (linuxSendfile ⟨[1, 2, 3, 4, 5], 0, []⟩ none 0 ⟨.ok (), 5⟩)) := by
  refine ⟨⟨by decide, fun h => ?_⟩, ⟨by decide, fun h => ?_⟩⟩
  · have hpos : (5 : Nat) = 0 + 2 := h.2.pos
    omega
  · have hle : (5 : Nat) ≤ 0 := h.1
    omega

end SleepyPenguin.Sendfile
