import SleepyPenguin.Inotify.Delivery
import SleepyPenguin.Tls.Theorems

-- A take by one thread, of a record of any size.
namespace SleepyPenguin.Inotify

open Foundation Tls

-- The capacity of the buffer that do_take gets first.
def room (s : Memory) : Nat :=
  match s.slot with
  | none => 128
  | some p =>
      match s.heap.get p with
      | some buf => if buf.bufType = .ready ∧ 128 ≤ buf.capa then buf.capa else 128
      | none => 128

-- Steps of the thread in which nothing fails, and more records.
def Act.Plain (i : Nat) : Act → Prop
  | .arrive _ => True
  | .enter _ _ => False
  | .read j fails => j = i ∧ fails = none
  | .resume j ioctl env closed => j = i ∧ ioctl = none ∧ env = {} ∧ closed = false
  | .wake j closed => j = i ∧ closed = false

def Act.own (act : Act) : Nat := if act.thread = none then 0 else 1

-- A take of thread `i` gets through, in at most two steps of its own after
-- the first, and returns the event.
structure Serves (w i : Nat) (s : Sys) (b : Begin) (event : Event) : Prop where
  enters : (s.step w (.enter i b)).isSome
  bounded : ∀ acts s', (∀ act ∈ acts, act.Plain i) →
    runEvents (Sys.step w) s (.enter i b :: acts) = some s' →
    (acts.map Act.own).sum ≤ 2
  goes : ∀ acts s', (∀ act ∈ acts, act.Plain i) → runEvents (Sys.step w) s (.enter i b :: acts) = some s' →
    ∀ t, s'.takers[i]? = some t → t.pc ≠ .idle → ∃ act, act.Plain i ∧ act.own = 1 ∧ (s'.step w act).isSome
  returns : ∀ acts s', (∀ act ∈ acts, act.Plain i) →
    runEvents (Sys.step w) s (.enter i b :: acts) = some s' →
    ∀ t, s'.takers[i]? = some t → t.pc = .idle → s'.returned = s.returned ++ [event]

-- The thread has its buffer.
structure Held (tls : Tls.Thread) (args : Args) (size : Nat) : Prop where
  wired : Tls.Wired tls
  out : args.buf ∈ tls.ptrs
  size : args.size = size

-- After so many steps of its own: in read(2), back from it, and over.
def Phase (r : Record) (size : Nat) (returned : List Event) (i : Nat) : Nat → Sys → Prop
  | 0, s => ∃ tls args rest, s.takers[i]? = some ⟨tls, .reading args⟩ ∧ Held tls args size ∧
      s.queue = r :: rest ∧ s.tmp = [] ∧ s.returned = returned
  | 1, s => ∃ tls args result, s.takers[i]? = some ⟨tls, .fetched args result⟩ ∧ Held tls args size ∧
      s.tmp = [] ∧ s.returned = returned ∧
      if r.size ≤ size then ∃ batch, result = .ok (r :: batch) else result = .error .EINVAL ∧ s.queue ≠ []
  | 2, s => ∃ tls, s.takers[i]? = some ⟨tls, .idle⟩ ∧
      s.returned = if r.size ≤ size then returned ++ [r.event] else returned
  | _ + 3, _ => False

section Buffer

variable {w : Nat} {tls : Tls.Thread} {args : Args}

theorem firstBuf_run (h : Tls.Wired tls) (w : Nat) (nonblockP : Bool) :
    ∃ args tls', (firstBuf nonblockP {}).run (Tls.exec w) tls = some (.ok args, tls') ∧
      Held tls' args (room tls.tls) := by
  have hfails : ¬Fails 128 {} := by simp [Fails]
  have hcases := gettlsbuf_cases h w 128 {}
  have hstep : ∀ {p left tls'}, gettlsbuf w tls.tls 128 {} = .returned (p, left) tls' →
      Tls.Wired { tls with tls := tls', out := ⟨p, 128, left⟩ :: tls.out } := by
    intro p left tls' hget
    have hspared : Spared tls (.get 128 {}) := fun _ => hfails
    refine h.spared hspared (w := w) ?_
    simp [step, h.fault, hget]
  have hrun : ∀ {p left tls'}, gettlsbuf w tls.tls 128 {} = .returned (p, left) tls' →
      (firstBuf nonblockP {}).run (Tls.exec w) tls =
        some (.ok ⟨nonblockP, left, p⟩, { tls with tls := tls', out := ⟨p, 128, left⟩ :: tls.out }) := by
    intro p left tls' hget
    exact Prog.run_bind_ok (run_get_returned hget)
  have hheld : ∀ {p left tls'}, gettlsbuf w tls.tls 128 {} = .returned (p, left) tls' →
    left = room tls.tls →
      ∃ args tls', (firstBuf nonblockP {}).run (Tls.exec w) tls = some (.ok args, tls') ∧
        Held tls' args (room tls.tls) :=
    fun hget hleft => ⟨_, _, hrun hget, hstep hget, List.mem_cons_self, hleft⟩
  generalize hout : gettlsbuf w tls.tls 128 {} = outcome at hcases
  cases hcases with
  | reused hslot hbuf hready hcapa => exact hheld hout (by simp [room, hslot, hbuf, hready, hcapa])
  | nested hslot hbuf hinuse hsize => exact hheld hout (by simp [room, hslot, hbuf, hinuse])
  | first hslot hsize => exact hheld hout (by simp [room, hslot])
  | grown hslot hgrows hmade hsize =>
      obtain ⟨p', buf, hslot', hbuf, _, hcapa⟩ := hgrows
      have hsmall : ¬128 ≤ buf.capa := by omega
      exact hheld hout (by simp [room, hslot', hbuf, hsmall])
  | refused _ hno _ _ => exact absurd hno hfails
  | lost _ hno _ _ _ => exact absurd hno hfails

-- With events in the queue, the resize always raises.
theorem resize_raises {size : Nat} (h : Held tls args size) {newlen : Int} (hpos : 0 < newlen) (env : Env) :
    ∃ e tls', (resizeInternalBuffer args (.ok newlen) env).run (Tls.exec w) tls =
      some (.error e, tls') := by
  unfold resizeInternalBuffer
  split
  · exact ⟨_, tls, rfl⟩
  · have hne : newlen ≠ 0 := by omega
    have hput : ∃ tls', (Waiter.put (some args.buf)).run (Tls.exec w) tls = some (.ok (), tls') ∧
      Tls.Wired tls' := by
      have hcases := puttlsbuf_cases h.wired h.out
      generalize hout : puttlsbuf tls.tls (some args.buf) = outcome at hcases
      cases hcases with
      | slot hslot hbuf => exact ⟨_, run_put_returned hout, h.wired.put (.slot hslot hbuf)⟩
      | malloced hslot hbuf => exact ⟨_, run_put_returned hout, h.wired.put (.malloced hslot hbuf)⟩
    obtain ⟨tls₁, hrun₁, hwired⟩ := hput
    have hget : (∃ e tls₂, (Waiter.get newlen.toNat env).run (Tls.exec w) tls₁ = some (.error e, tls₂)) ∨
        ∃ p left tls₂, (Waiter.get newlen.toNat env).run (Tls.exec w) tls₁ =
          some (.ok (p, left), tls₂) := by
      have hcases := gettlsbuf_cases hwired w newlen.toNat env
      generalize hout : gettlsbuf w tls₁.tls newlen.toNat env = outcome at hcases
      cases hcases with
      | reused _ _ _ _ => exact Or.inr ⟨_, _, _, run_get_returned hout⟩
      | nested _ _ _ _ => exact Or.inr ⟨_, _, _, run_get_returned hout⟩
      | first _ _ => exact Or.inr ⟨_, _, _, run_get_returned hout⟩
      | grown _ _ _ _ => exact Or.inr ⟨_, _, _, run_get_returned hout⟩
      | refused _ _ _ _ => exact Or.inl ⟨_, _, run_get_raised hout⟩
      | lost _ _ _ _ _ => exact Or.inl ⟨_, _, run_get_raised hout⟩
    simp only [if_neg hne]
    rcases hget with ⟨e, tls₂, hrun₂⟩ | ⟨p, left, tls₂, hrun₂⟩
    · refine ⟨e, tls₂, Prog.run_bind_error ?_⟩
      rw [regrow, if_pos hpos, Prog.run_bind_ok hrun₁]
      exact Prog.run_bind_error hrun₂
    · refine ⟨negativeLength newlen, tls₂, ?_⟩
      have hregrow : (regrow args newlen env).run (Tls.exec w) tls =
          some (.ok { args with size := left, buf := p }, tls₂) := by
        rw [regrow, if_pos hpos, Prog.run_bind_ok hrun₁]
        exact Prog.run_bind_ok hrun₂
      exact Prog.run_bind_ok hregrow

end Buffer

section Phases

variable {w i size : Nat} {r : Record} {returned : List Event} {s s' : Sys}

theorem pending_pos {queue : List Record} (h : queue ≠ []) : 0 < ((queue.map Record.size).sum : Int) := by
  cases queue with
  | nil => exact absurd rfl h
  | cons r rest =>
      have hpos := r.size_pos
      simp only [List.map_cons, List.sum_cons]
      omega

-- The read with events in the queue, and what comes after it.
theorem phase_read (h : Phase r size returned i 0 s) :
    ∃ s', s.step w (.read i none) = some s' ∧ Phase r size returned i 1 s' := by
  obtain ⟨tls, args, rest, hi, hheld, hqueue, htmp, hreturned⟩ := h
  have hlt : i < s.takers.length := (List.getElem?_eq_some_iff.mp hi).1
  by_cases hfits : r.size ≤ size
  · have hread : inread s.queue s.nonblock args.size none =
        some (.ok (r :: fitting (size - r.size) rest),
          rest.drop (fitting (size - r.size) rest).length) := by
      simp [inread, hqueue, hheld.size, hfits, fitting]
    refine ⟨_, by simp only [Sys.step, hi, hread, Option.map_some]; rfl, ?_⟩
    exact ⟨tls, args, _, List.getElem?_set_self hlt, hheld, htmp, hreturned, by simp [hfits]⟩
  · have hread : inread s.queue s.nonblock args.size none = some (.error .EINVAL, s.queue) := by
      simp [inread, hqueue, hheld.size, hfits]
    refine ⟨_, by simp only [Sys.step, hi, hread, Option.map_some]; rfl, ?_⟩
    exact ⟨tls, args, _, List.getElem?_set_self hlt, hheld, htmp, hreturned, by simp [hfits, hqueue]⟩

theorem phase_resume (h : Phase r size returned i 1 s) :
    ∃ s', s.step w (.resume i none {} false) = some s' ∧ Phase r size returned i 2 s' := by
  obtain ⟨tls, args, result, hi, hheld, htmp, hreturned, hresult⟩ := h
  have hlt : i < s.takers.length := (List.getElem?_eq_some_iff.mp hi).1
  by_cases hfits : r.size ≤ size
  · rw [if_pos hfits] at hresult
    obtain ⟨batch, rfl⟩ := hresult
    have hrun :
        (afterRead args { read := Sys.bytes (.ok (r :: batch)), ioctl := fionread s.queue none }).run
          (Tls.exec w) tls = some (.ok (.ended (some r.event) (batch.map Record.event)), tls) := by
      rw [afterRead_batch rfl rfl]
      rfl
    refine ⟨s.turned i tls (.ok (.ended (some r.event) (batch.map Record.event))), ?_, ?_⟩
    · simp only [Sys.step, hi, hrun, Option.map_some]
    · refine ⟨tls, List.getElem?_set_self hlt, ?_⟩
      rw [if_pos hfits, ← hreturned]
      rfl
  · rw [if_neg hfits] at hresult
    obtain ⟨rfl, hne⟩ := hresult
    obtain ⟨e, tls', hraise⟩ := resize_raises (w := w) hheld (pending_pos hne) {}
    have hrun : (afterRead args { read := Sys.bytes (.error .EINVAL), ioctl := fionread s.queue none }).run
        (Tls.exec w) tls = some (.error e, tls') := Prog.run_bind_error hraise
    refine ⟨s.turned i tls' (.error e), ?_, ?_⟩
    · simp only [Sys.step, hi, hrun, Option.map_some]
    · refine ⟨tls', List.getElem?_set_self hlt, ?_⟩
      rw [if_neg hfits, ← hreturned]
      rfl

theorem phase_arrive {n : Nat} (h : Phase r size returned i n s) (other : Record) :
    Phase r size returned i n { s with queue := s.queue ++ [other], arrived := s.arrived ++ [other] } := by
  rcases n with _ | _ | _ | n
  · obtain ⟨tls, args, rest, hi, hheld, hqueue, hothers⟩ := h
    refine ⟨tls, args, rest ++ [other], hi, hheld, ?_, hothers⟩
    rw [hqueue]
    rfl
  · obtain ⟨tls, args, result, hi, hheld, htmp, hreturned, hresult⟩ := h
    refine ⟨tls, args, result, hi, hheld, htmp, hreturned, ?_⟩
    split
    · rename_i hfits
      rwa [if_pos hfits] at hresult
    · rename_i hfits
      rw [if_neg hfits] at hresult
      exact ⟨hresult.1, fun hnil => hresult.2 (List.append_eq_nil_iff.mp hnil).1⟩
  · exact h
  · exact h

theorem phase_pc {n : Nat} (h : Phase r size returned i n s) : n ≤ 2 ∧ ∃ t, s.takers[i]? = some t ∧
    (n = 0 ↔ ∃ args, t.pc = .reading args) ∧ (n = 1 ↔ ∃ args result, t.pc = .fetched args result) ∧
    (n = 2 ↔ t.pc = .idle) := by
  rcases n with _ | _ | _ | n
  · obtain ⟨tls, args, rest, hi, _⟩ := h
    exact ⟨by omega, _, hi, by simp, by simp, by simp⟩
  · obtain ⟨tls, args, result, hi, _⟩ := h
    exact ⟨by omega, _, hi, by simp, by simp, by simp⟩
  · obtain ⟨tls, hi, _⟩ := h
    exact ⟨by omega, _, hi, by simp, by simp, by simp⟩
  · exact h.elim

theorem phase_step {n : Nat} {act : Act} (h : Phase r size returned i n s) (hplain : act.Plain i)
    (hs : s.step w act = some s') : Phase r size returned i (n + act.own) s' := by
  obtain ⟨_, t, hi, hreading, hfetched, hidle⟩ := phase_pc h
  cases act with
  | arrive other =>
      cases hs
      exact phase_arrive h other
  | enter j b => exact hplain.elim
  | read j fails =>
      obtain ⟨rfl, rfl⟩ := hplain
      have hzero : n = 0 := by
        simp only [Sys.step] at hs
        split at hs
        · rename_i tls args hj
          obtain rfl := Option.some.inj (hi.symm.trans hj)
          exact hreading.mpr ⟨args, rfl⟩
        · cases hs
      subst hzero
      obtain ⟨s₁, hs₁, h₁⟩ := phase_read (w := w) h
      obtain rfl := Option.some.inj (hs.symm.trans hs₁)
      exact h₁
  | resume j ioctl env closed =>
      obtain ⟨rfl, rfl, rfl, rfl⟩ := hplain
      have hone : n = 1 := by
        simp only [Sys.step] at hs
        split at hs
        · rename_i tls args result hj
          obtain rfl := Option.some.inj (hi.symm.trans hj)
          exact hfetched.mpr ⟨args, result, rfl⟩
        · cases hs
      subst hone
      obtain ⟨s₁, hs₁, h₁⟩ := phase_resume (w := w) h
      obtain rfl := Option.some.inj (hs.symm.trans hs₁)
      exact h₁
  | wake j closed =>
      obtain ⟨rfl, rfl⟩ := hplain
      simp only [Sys.step] at hs
      split at hs
      · rename_i tls args errno hj
        obtain rfl := Option.some.inj (hi.symm.trans hj)
        rcases n with _ | _ | _ | n
        · obtain ⟨_, hpc⟩ := hreading.mp rfl
          cases hpc
        · obtain ⟨_, _, hpc⟩ := hfetched.mp rfl
          cases hpc
        · cases hidle.mp rfl
        · exact h.elim
      · cases hs

theorem phase_run {n : Nat} {acts : List Act} (h : Phase r size returned i n s)
    (hplain : ∀ act ∈ acts, act.Plain i) (hs : runEvents (Sys.step w) s acts = some s') :
    Phase r size returned i (n + (acts.map Act.own).sum) s' := by
  induction acts generalizing s n with
  | nil =>
      cases hs
      exact h
  | cons act rest ih =>
      obtain ⟨s₁, hs₁, hrest⟩ := Option.bind_eq_some_iff.mp hs
      have h₁ := phase_step h (hplain act List.mem_cons_self) hs₁
      have hend := ih h₁ (fun other ho => hplain other (List.mem_cons_of_mem _ ho)) hrest
      rw [List.map_cons, List.sum_cons, ← Nat.add_assoc]
      exact hend

theorem phase_enter {tls : Tls.Thread} {rest : List Record} (hwired : Tls.Wired tls)
    (hi : s.takers[i]? = some ⟨tls, .idle⟩) (htmp : s.tmp = []) (hqueue : s.queue = r :: rest) (w : Nat)
    (nonblockP : Bool) : ∃ s', s.step w (.enter i { nonblock := .ok nonblockP }) = some s' ∧
      Phase r (room tls.tls) s.returned i 0 s' := by
  have hlt : i < s.takers.length := (List.getElem?_eq_some_iff.mp hi).1
  have hprepare : (prepare { nonblock := .ok nonblockP }).run (Tls.exec w) tls =
    some (.ok nonblockP, tls) := by
    cases nonblockP <;> rfl
  obtain ⟨args, tls', hfirst, hheld⟩ := firstBuf_run hwired w nonblockP
  refine ⟨_, by simp only [Sys.step, hi, Sys.enter, htmp, hprepare, hfirst]; rfl, ?_⟩
  exact ⟨tls', args, rest, List.getElem?_set_self hlt, hheld, hqueue, rfl, rfl⟩

-- A thread that is not over has a next step of its own.
theorem phase_goes {n : Nat} {t : Taker} (h : Phase r size returned i n s) (ht : s.takers[i]? = some t)
    (hpc : t.pc ≠ .idle) : ∃ act, act.Plain i ∧ act.own = 1 ∧ (s.step w act).isSome := by
  obtain ⟨_, t', ht', _, _, hidle⟩ := phase_pc h
  obtain rfl := Option.some.inj (ht.symm.trans ht')
  rcases n with _ | _ | _ | n
  · obtain ⟨s₁, hs₁, _⟩ := phase_read (w := w) h
    exact ⟨.read i none, ⟨rfl, rfl⟩, rfl, by rw [hs₁]; rfl⟩
  · obtain ⟨s₁, hs₁, _⟩ := phase_resume (w := w) h
    exact ⟨.resume i none {} false, ⟨rfl, rfl, rfl, rfl⟩, rfl, by rw [hs₁]; rfl⟩
  · exact absurd (hidle.mp rfl) hpc
  · exact h.elim

theorem phase_returned {n : Nat} {t : Taker} (h : Phase r size returned i n s) (ht : s.takers[i]? = some t)
    (hpc : t.pc = .idle) : s.returned = if r.size ≤ size then returned ++ [r.event] else returned := by
  obtain ⟨_, t', ht', _, _, hidle⟩ := phase_pc h
  obtain rfl := Option.some.inj (ht.symm.trans ht')
  have htwo := hidle.mpr hpc
  subst htwo
  obtain ⟨_, _, hreturned⟩ := h
  exact hreturned

end Phases

-- For every state that requests and releases without a failing allocation
-- leave a thread's buffer in, and every queue with an event: the take
-- returns this event just when it fits the buffer that the thread gets first.
theorem serves_iff {w i : Nat} {s : Sys} {history : List Tls.Event} {tls : Tls.Thread} {r : Record}
    {rest : List Record} (hserved : ∀ event ∈ history, event.Served)
    (hhistory : runEvents (Tls.step w) Thread.start history = some tls)
    (hi : s.takers[i]? = some ⟨tls, .idle⟩) (htmp : s.tmp = []) (hqueue : s.queue = r :: rest)
    (nonblockP : Bool) :
    Serves w i s { nonblock := .ok nonblockP } r.event ↔ r.size ≤ room tls.tls := by
  have hwired : Tls.Wired tls := run_invariant Tls.Wired
    (fun s event s' h he hs => h.spared he.spared hs) hserved
    start_wired hhistory
  obtain ⟨s₀, hs₀, h₀⟩ := phase_enter hwired hi htmp hqueue w nonblockP
  have hrun : ∀ acts, runEvents (Sys.step w) s (.enter i { nonblock := .ok nonblockP } :: acts) =
      runEvents (Sys.step w) s₀ acts := by
    intro acts
    rw [runEvents_cons, hs₀, Option.bind_some]
  constructor
  · intro hserves
    by_contra hfits
    obtain ⟨s₁, hs₁, h₁⟩ := phase_read (w := w) h₀
    obtain ⟨s₂, hs₂, h₂⟩ := phase_resume (w := w) h₁
    have hboth : runEvents (Sys.step w) s₀ [.read i none, .resume i none {} false] = some s₂ := by
      simp [hs₁, hs₂]
    obtain ⟨tls₂, hi₂, hreturned⟩ := h₂
    have hplain : ∀ act ∈ [Act.read i none, .resume i none {} false], act.Plain i := by
      simp [Act.Plain]
    have hsame := hserves.returns _ _ hplain ((hrun _).trans hboth) _ hi₂ rfl
    rw [if_neg hfits] at hreturned
    have hlen := congrArg List.length (hreturned.symm.trans hsame)
    simp at hlen
  · intro hfits
    have hphase : ∀ {acts s'}, (∀ act ∈ acts, act.Plain i) →
        runEvents (Sys.step w) s (.enter i { nonblock := .ok nonblockP } :: acts) = some s' →
        Phase r (room tls.tls) s.returned i (acts.map Act.own).sum s' := by
      intro acts s' hplain hs
      have h := phase_run h₀ hplain ((hrun acts).symm.trans hs)
      rwa [Nat.zero_add] at h
    refine ⟨by rw [hs₀]; rfl, fun acts s' hplain hs => ?_, fun acts s' hplain hs t ht hpc => ?_,
      fun acts s' hplain hs t ht hpc => ?_⟩
    · exact (phase_pc (hphase hplain hs)).1
    · exact phase_goes (hphase hplain hs) ht hpc
    · rw [phase_returned (hphase hplain hs) ht hpc, if_pos hfits]

-- A file whose name takes 128 bytes.
def long : Record :=
  ⟨1, 256, 0, List.replicate 120 97 ++ List.replicate 8 0, created.int, created.uint, by simp, by simp⟩

-- The thread has waited with a larger buffer before.
def waited : Thread := ⟨⟨⟨[some ⟨264, 256, .ready⟩]⟩, some 0⟩, [], none⟩

theorem serves_created : Serves 64 0 ⟨[long, created], false, [], [⟨waited, .idle⟩], [long, created], []⟩
    { nonblock := .ok false } long.event := by
  have hserved : ∀ event ∈ [Tls.Event.get 256 {}, .put 0], event.Served := by simp [Tls.Event.Served]
  have hhistory : runEvents (Tls.step 64) Thread.start [.get 256 {}, .put 0] = some waited := by
    decide +kernel
  exact (serves_iff hserved hhistory rfl rfl rfl false).mpr (by decide +kernel)

-- One event in the queue, and a thread that has not waited before.
def single (r : Record) : Sys := ⟨[r], false, [], [⟨Thread.start, .idle⟩], [r], []⟩

-- The thread with the buffer of 128 bytes, and with the one of 144 after it.
def before : Thread := ⟨⟨⟨[some ⟨136, 128, .inuse⟩]⟩, some 0⟩, [⟨0, 128, 128⟩], none⟩

def after : Thread := ⟨⟨⟨[none, some ⟨152, 144, .inuse⟩]⟩, some 1⟩, [⟨1, 144, 144⟩], none⟩

theorem long_raises :
    runEvents (Sys.step 64) (single long) [.enter 0 { nonblock := .ok false }, .read 0 none] =
      some ⟨[long], false, [], [⟨before, .fetched ⟨false, 128, 0⟩ (.error .EINVAL)⟩], [long], []⟩ ∧
    (afterRead ⟨false, 128, 0⟩ { read := .error .EINVAL, ioctl := fionread [long] none }).run
    (Tls.exec 64) before =
      some (.error (.runtimeError "ioctl(inotify,FIONREAD) returned negative length: 144"), after) ∧
    ¬Serves 64 0 (single long) { nonblock := .ok false } long.event := by
  refine ⟨by decide +kernel, by decide +kernel, fun hserves => ?_⟩
  have hplain : ∀ act ∈ [Act.read 0 none, .resume 0 none {} false], act.Plain 0 := by
    simp [Act.Plain]
  have hrun : runEvents (Sys.step 64) (single long)
      [.enter 0 { nonblock := .ok false }, .read 0 none, .resume 0 none {} false] =
        some ⟨[long], false, [], [⟨after, .idle⟩], [long], []⟩ := by
    decide +kernel
  have hreturned := hserves.returns _ _ hplain hrun _ rfl rfl
  exact absurd hreturned (List.cons_ne_nil _ _).symm

end SleepyPenguin.Inotify
