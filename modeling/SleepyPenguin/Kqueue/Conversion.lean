import SleepyPenguin.Foundation.Lists
import SleepyPenguin.Kqueue.Methods

-- From a changelist as Ruby has it to what kevent(2) is given, where a long
-- has 64 bits.
namespace SleepyPenguin.Kqueue.Conversion

-- A member of a struct or an element of an array: an Integer, or another
-- object with the Integer it converts to. `none` is an object that does not
-- convert, `some tag` what its own to_int raised.
inductive Value
  | int (n : Int)
  | object (o : Obj) (toInt : Except (Option Nat) Int)
  deriving DecidableEq, Repr

-- What went wrong: the extension's own TypeError with its text, a field that
-- does not convert, or something before the first field.
inductive Failure
  | type (message : String)
  | field (e : Err)
  | length
  | memory
  | raised (e : Err)
  deriving DecidableEq, Repr

def Value.toInteger : Value → Except Err Int
  | .int n => .ok n
  | .object _ (.ok n) => .ok n
  | .object _ (.error none) => .error .typeError
  | .object _ (.error (some tag)) => .error (.block tag)

-- One NUM2xxx macro.
def convert (num2 : Int → Except Err Int) (value : Value) : Except Failure Int :=
  match value.toInteger with
  | .error e => .error (.field e)
  | .ok n =>
      match num2 n with
      | .error e => .error (.field e)
      | .ok n => .ok n

def num2ulong : Value → Except Failure Int := convert (wrapping (-0x8000000000000000) 0x10000000000000000)
def num2short : Value → Except Failure Int := convert (ranged (-0x8000) 0x8000)
def num2ushort : Value → Except Failure Int := convert (wrapping (-0x8000) 0x10000)
def num2uintField : Value → Except Failure Int := convert (wrapping (-0x80000000) 0x100000000)
def num2long : Value → Except Failure Int := convert (ranged (-0x8000000000000000) 0x8000000000000000)

-- `struct kevent`, whose udata is the object itself.
structure Record where
  ident : Int
  filter : Int
  flags : Int
  fflags : Int
  data : Int
  udata : Value
  deriving DecidableEq, Repr

-- EV_SET on six entries, converted in order.
def evSet (entries : List Value) (message : String) : Except Failure Record :=
  match entries with
  | [ident, filter, flags, fflags, data, udata] => do
      let ident ← num2ulong ident
      let filter ← num2short filter
      let flags ← num2ushort flags
      let fflags ← num2uintField fflags
      let data ← num2long data
      pure ⟨ident, filter, flags, fflags, data, udata⟩
  | _ => .error (.type message)

def evSetStruct (members : List Value) : Except Failure Record :=
  evSet members "unsupported struct in changelist"

def evSetAry (elements : List Value) : Except Failure Record :=
  evSet elements "changelist must be an array of 6-element arrays or structs"

-- An element of a changelist, by its TYPE.
inductive Item
  | struct (members : List Value)
  | ary (elements : List Value)
  | other (o : Obj)
  deriving DecidableEq, Repr

def unsupported : Failure := .type "unsupported type in changelist"

-- `case T_ARRAY` has neither a return nor a break.
def unpackEvent : Item → Except Failure Record
  | .struct members => evSetStruct members
  | .ary elements => do
      let _ ← evSetAry elements
      .error unsupported
  | .other _ => .error unsupported

inductive Argument
  | nil
  | struct (members : List Value)
  | ary (items : List Item)
  | other (o : Obj)
  deriving DecidableEq, Repr

def ary2eventlist (changelist : List Item) : Except Failure (List Record) := changelist.mapM unpackEvent

-- Called where there is something to prepare.
def changelistPrepare : Argument → Except Failure (List Record)
  | .ary items => ary2eventlist items
  | .struct members => (unpackEvent (.struct members)).map fun event => [event]
  | .nil | .other _ => .ok []

-- The number of changes, RARRAY_LENINT for an array.
def nchangesOf : Argument → Except Failure Nat
  | .nil => .ok 0
  | .struct _ => .ok 1
  | .ary items => if items.length < 0x80000000 then .ok items.length else .error .length
  | .other _ => .error (.type "unhandled type for kevent changelist")

-- The sizes of `struct kq_per_thread` and `struct kevent`.
structure Sizes where
  header : Nat
  kevent : Nat
  deriving DecidableEq, Repr

-- The buffer, where there is memory for it.
def kptGet (sizes : Sizes) (memory : Bool) (nchanges nevents : Nat) : Except Failure Unit :=
  if sizes.header + sizes.kevent * max nchanges nevents ≥ 0xFFFFFFFF ∨ memory = false then .error .memory
  else .ok ()

-- Everything but the changelist that a call depends on before kevent(2).
structure Call where
  events : Option Int
  block : Bool
  timeout : Except Err Unit
  memory : Bool
  closed : Bool

def lift {α : Type} : Except Err α → Except Failure α
  | .ok value => .ok value
  | .error e => .error (.raised e)

theorem lift_ok {α : Type} {x : Except Err α} {value : α} (h : lift x = .ok value) : x = .ok value := by
  cases x with
  | ok value' =>
      cases h
      rfl
  | error e => cases h

-- What kevent(2) is given first, or what is raised before it is called.
def spKevent (sizes : Sizes) (changelist : Argument) (call : Call) : Except Failure (List Record) := do
  let nchanges ← nchangesOf changelist
  let nevents ← lift (neventsOf call.events call.block)
  lift call.timeout
  kptGet sizes call.memory nchanges nevents
  if call.closed then .error (.raised .ioError)
  else if nchanges ≠ 0 then changelistPrepare changelist
  else .ok []

-- What a field of an unsigned type holds: the number itself, or what the C
-- conversion makes of a negative one.
def Unsigned (low high : Int) (value : Value) (stored : Int) : Prop :=
  ∃ n, value.toInteger = .ok n ∧ low ≤ n ∧ n < high ∧ stored = n % high

def Signed (low high : Int) (value : Value) (stored : Int) : Prop :=
  value.toInteger = .ok stored ∧ low ≤ stored ∧ stored < high

-- Six entries in the ranges of the fields, and the record that has them.
inductive Carries : List Value → Record → Prop
  | intro {ident filter flags fflags data udata : Value} {r : Record}
      (hident : Unsigned (-0x8000000000000000) 0x10000000000000000 ident r.ident)
      (hfilter : Signed (-0x8000) 0x8000 filter r.filter)
      (hflags : Unsigned (-0x8000) 0x10000 flags r.flags)
      (hfflags : Unsigned (-0x80000000) 0x100000000 fflags r.fflags)
      (hdata : Signed (-0x8000000000000000) 0x8000000000000000 data r.data)
      (hudata : r.udata = udata) : Carries [ident, filter, flags, fflags, data, udata] r

-- One element of the documented forms.
def Element : Item → Record → Prop
  | .struct members, r => Carries members r
  | .ary elements, r => Carries elements r
  | .other _, _ => False

-- The documented forms, and the records that kevent(2) is to be given.
def Documented : Argument → List Record → Prop
  | .nil, records => records = []
  | .struct members, records => ∃ r, Carries members r ∧ records = [r]
  | .ary items, records => List.Forall₂ Element items records
  | .other _, _ => False

-- The first error that the forms themselves account for.
def expectedRecord : Item → Except Failure Record
  | .struct members => evSetStruct members
  | .ary elements => evSetAry elements
  | .other _ => .error unsupported

def expected : Argument → Except Failure (List Record)
  | .nil => .ok []
  | .struct members => (expectedRecord (.struct members)).map fun event => [event]
  | .ary items => items.mapM expectedRecord
  | .other _ => .error (.type "unhandled type for kevent changelist")

-- One record for each element of a documented form; for anything else a
-- TypeError or the error of the first bad field, and no kevent(2).
structure Converts (changelist : Argument) (outcome : Except Failure (List Record)) : Prop where
  submits : ∀ records, Documented changelist records → outcome = .ok records
  raises : (¬∃ records, Documented changelist records) →
    ∃ f, outcome = .error f ∧ ((∃ message, f = .type message) ∨ expected changelist = .error f)

theorem unsigned_of_nonneg {low high stored : Int} {value : Value} {n : Int}
    (h : Unsigned low high value stored) (hn : value.toInteger = .ok n) (h0 : 0 ≤ n) : stored = n := by
  obtain ⟨k, hk, _, hlt, hstored⟩ := h
  have heq : k = n := Except.ok.inj (hk.symm.trans hn)
  rw [hstored, heq]
  exact Int.emod_eq_of_lt h0 (heq ▸ hlt)

theorem convert_wrapping {low high stored : Int} {value : Value} :
    convert (wrapping low high) value = .ok stored ↔ Unsigned low high value stored := by
  unfold convert Unsigned wrapping
  cases hv : value.toInteger with
  | error e => simp
  | ok n =>
      by_cases hr : low ≤ n ∧ n < high
      · simp [hr, eq_comm]
      · simp only [if_neg hr, reduceCtorEq, Except.ok.injEq, false_iff]
        rintro ⟨k, rfl, hlow, hhigh, _⟩
        exact hr ⟨hlow, hhigh⟩

theorem convert_ranged {low high stored : Int} {value : Value} :
    convert (ranged low high) value = .ok stored ↔ Signed low high value stored := by
  unfold convert Signed ranged
  cases hv : value.toInteger with
  | error e => simp
  | ok n =>
      by_cases hr : low ≤ n ∧ n < high
      · simp only [if_pos hr, Except.ok.injEq]
        constructor
        · rintro rfl
          exact ⟨rfl, hr⟩
        · exact fun h => h.1
      · simp only [if_neg hr, reduceCtorEq, Except.ok.injEq, false_iff]
        rintro ⟨rfl, hs⟩
        exact hr hs

theorem evSet_ok_iff (entries : List Value) (message : String) (r : Record) :
    evSet entries message = .ok r ↔ Carries entries r := by
  constructor
  · intro h
    unfold evSet at h
    split at h
    · simp only [Except.bind_ok_iff] at h
      obtain ⟨i, hi, fi, hfi, fl, hfl, ff, hff, d, hd, hr⟩ := h
      cases hr
      exact ⟨convert_wrapping.mp hi, convert_ranged.mp hfi, convert_wrapping.mp hfl,
        convert_wrapping.mp hff, convert_ranged.mp hd, rfl⟩
    · cases h
  · rintro ⟨hident, hfilter, hflags, hfflags, hdata, hudata⟩
    simp only [evSet, Except.bind_ok_iff]
    refine ⟨_, convert_wrapping.mpr hident, _, convert_ranged.mpr hfilter, _, convert_wrapping.mpr hflags,
      _, convert_wrapping.mpr hfflags, _, convert_ranged.mpr hdata, ?_⟩
    rw [← hudata]
    rfl

theorem expectedRecord_ok_iff (item : Item) (r : Record) : expectedRecord item = .ok r ↔
    Element item r := by
  cases item with
  | struct members => exact evSet_ok_iff members _ r
  | ary elements => exact evSet_ok_iff elements _ r
  | other o => simp [expectedRecord, Element]

theorem expected_ok_iff (changelist : Argument) (records : List Record) :
    expected changelist = .ok records ↔ Documented changelist records := by
  cases changelist with
  | nil => simp [expected, Documented, eq_comm]
  | struct members =>
      simp only [expected, Documented, expectedRecord, evSetStruct, ← evSet_ok_iff members
        "unsupported struct in changelist"]
      cases evSet members "unsupported struct in changelist" with
      | error e => simp [Except.map]
      | ok r => simp [Except.map, eq_comm]
  | ary items =>
      simp only [expected, Documented, Except.mapM_ok_iff, expectedRecord_ok_iff]
  | other o => simp [expected, Documented]

-- An element that is an array never gets past the fall-through.
theorem unpackEvent_cases (item : Item) :
    unpackEvent item = expectedRecord item ∨ unpackEvent item = .error unsupported := by
  cases item with
  | struct members => exact Or.inl rfl
  | ary elements =>
      simp only [unpackEvent, expectedRecord]
      cases evSetAry elements with
      | error e => exact Or.inl rfl
      | ok r => exact Or.inr rfl
  | other o => exact Or.inl rfl

theorem ary2eventlist_cases (items : List Item) :
    ary2eventlist items = items.mapM expectedRecord ∨ ary2eventlist items = .error unsupported := by
  unfold ary2eventlist
  induction items with
  | nil => exact Or.inl rfl
  | cons item rest ih =>
      rw [List.mapM_cons, List.mapM_cons]
      rcases unpackEvent_cases item with hi | hi
      · rw [hi]
        cases expectedRecord item with
        | error e => exact Or.inl rfl
        | ok r =>
            rcases ih with hr | hr
            · rw [hr]
              exact Or.inl rfl
            · rw [hr]
              exact Or.inr rfl
      · rw [hi]
        exact Or.inr rfl

def Item.isAry : Item → Bool
  | .ary _ => true
  | _ => false

theorem unpackEvent_not_ary {item : Item} {r : Record} (h : unpackEvent item = .ok r) :
    item.isAry = false := by
  cases item with
  | struct members => rfl
  | ary elements =>
      obtain ⟨_, _, hnone⟩ := Except.bind_ok_iff.mp h
      cases hnone
  | other o => rfl

theorem ary2eventlist_not_ary {items : List Item} {records : List Record}
    (h : ary2eventlist items = .ok records) : ∀ item ∈ items, item.isAry = false := by
  have hall := (Except.mapM_ok_iff unpackEvent items records).mp h
  have hboth := hall.imp fun item r hr => And.intro (unpackEvent_not_ary hr) hr
  exact ((List.forall₂_and_left items records).mp hboth).1

theorem ary2eventlist_structs {items : List Item} (h : ∀ item ∈ items, item.isAry = false) :
    ary2eventlist items = items.mapM expectedRecord := by
  unfold ary2eventlist
  induction items with
  | nil => rfl
  | cons item rest ih =>
      have hfirst : unpackEvent item = expectedRecord item := by
        have hitem := h item List.mem_cons_self
        cases item with
        | struct members => rfl
        | ary elements => cases hitem
        | other o => rfl
      rw [List.mapM_cons, List.mapM_cons, hfirst, ih fun other ho => h other (List.mem_cons_of_mem _ ho)]

-- An element of the changelist is an array.
def HasArray : Argument → Prop
  | .ary items => ∃ item ∈ items, item.isAry = true
  | _ => False

-- The changelist has a type that kevent goes on with.
def Supported : Argument → Prop
  | .other _ => False
  | _ => True

def size : Argument → Nat
  | .nil => 0
  | .struct _ => 1
  | .ary items => items.length
  | .other _ => 0

-- There is a buffer for the changelist and for the events.
structure Room (sizes : Sizes) (memory : Bool) (changelist : Argument) (nevents : Nat) : Prop where
  int : size changelist < 0x80000000
  bytes : sizes.header + sizes.kevent * max (size changelist) nevents < 0xFFFFFFFF
  memory : memory = true

-- The other arguments are as they should be and the IO is open.
structure Valid (call : Call) (nevents : Nat) : Prop where
  events : neventsOf call.events call.block = .ok nevents
  timeout : call.timeout = .ok ()
  closed : call.closed = false

section Call

variable {sizes : Sizes} {changelist : Argument} {call : Call} {nevents : Nat}

theorem nchangesOf_supported (h : Supported changelist) :
    nchangesOf changelist =
      if size changelist < 0x80000000 then .ok (size changelist) else .error .length := by
  cases changelist with
  | nil => rfl
  | struct members => rfl
  | ary items => rfl
  | other o => exact h.elim

theorem prepare_empty (h : size changelist = 0) : changelistPrepare changelist = .ok [] := by
  cases changelist with
  | nil => rfl
  | struct members => cases h
  | ary items =>
      have hnil : items = [] := List.eq_nil_of_length_eq_zero h
      rw [hnil]
      rfl
  | other o => rfl

theorem nchangesOf_ok {nchanges : Nat} (h : nchangesOf changelist = .ok nchanges) :
    Supported changelist ∧ nchanges = size changelist := by
  cases changelist with
  | nil =>
      cases h
      exact ⟨trivial, rfl⟩
  | struct members =>
      cases h
      exact ⟨trivial, rfl⟩
  | ary items =>
      simp only [nchangesOf] at h
      split at h
      · cases h
        exact ⟨trivial, rfl⟩
      · cases h
  | other o => cases h

-- A call that gets to kevent(2) has prepared all of its changelist.
theorem spKevent_prepares {records : List Record} (h : spKevent sizes changelist call = .ok records) :
    Supported changelist ∧ changelistPrepare changelist = .ok records := by
  simp only [spKevent, Except.bind_ok_iff] at h
  obtain ⟨nchanges, hn, _, _, _, _, _, _, h⟩ := h
  obtain ⟨hs, rfl⟩ := nchangesOf_ok hn
  refine ⟨hs, ?_⟩
  split at h
  · cases h
  split at h
  · exact h
  · rename_i hzero
    exact (prepare_empty (by omega)).trans h

-- With room, the conversion decides.
theorem spKevent_room (hs : Supported changelist) (hv : Valid call nevents)
    (hroom : Room sizes call.memory changelist nevents) :
    spKevent sizes changelist call = changelistPrepare changelist := by
  have hbytes := hroom.bytes
  have hkpt : kptGet sizes call.memory (size changelist) nevents = .ok () := by
    simp only [kptGet, hroom.memory, reduceCtorEq, or_false]
    rw [if_neg (by omega)]
  have hlift : lift (neventsOf call.events call.block) = .ok nevents := by rw [hv.events]; rfl
  have htimeout : lift call.timeout = .ok () := by rw [hv.timeout]; rfl
  have hn : nchangesOf changelist = .ok (size changelist) := by
    rw [nchangesOf_supported hs, if_pos hroom.int]
  unfold spKevent
  rw [hn, hlift, htimeout]
  change (kptGet sizes call.memory (size changelist) nevents >>= fun _ => _) = _
  rw [hkpt, hv.closed]
  by_cases hzero : size changelist = 0
  · rw [prepare_empty hzero, hzero]
    rfl
  · change (if size changelist ≠ 0 then changelistPrepare changelist else .ok []) = _
    rw [if_pos hzero]

-- Without room, nothing of the changelist is looked at.
theorem spKevent_no_room (hs : Supported changelist) (hv : Valid call nevents)
    (hroom : ¬Room sizes call.memory changelist nevents) :
    spKevent sizes changelist call = .error .length ∨ spKevent sizes changelist call = .error .memory := by
  have hlift : lift (neventsOf call.events call.block) = .ok nevents := by rw [hv.events]; rfl
  have htimeout : lift call.timeout = .ok () := by rw [hv.timeout]; rfl
  by_cases hint : size changelist < 0x80000000
  · have hn : nchangesOf changelist = .ok (size changelist) := by
      rw [nchangesOf_supported hs, if_pos hint]
    have hkpt : kptGet sizes call.memory (size changelist) nevents = .error .memory := by
      unfold kptGet
      rw [if_pos]
      by_cases hbytes : sizes.header + sizes.kevent * max (size changelist) nevents < 0xFFFFFFFF
      · refine Or.inr ?_
        cases hm : call.memory with
        | false => rfl
        | true => exact absurd ⟨hint, hbytes, hm⟩ hroom
      · exact Or.inl (by omega)
    refine Or.inr ?_
    unfold spKevent
    rw [hn, hlift, htimeout]
    change (kptGet sizes call.memory (size changelist) nevents >>= fun _ => _) = _
    rw [hkpt]
    rfl
  · have hn : nchangesOf changelist = .error .length := by
      rw [nchangesOf_supported hs, if_neg hint]
    refine Or.inl ?_
    unfold spKevent
    rw [hn]
    rfl

theorem prepare_structs (hs : Supported changelist) (ha : ¬HasArray changelist) :
    changelistPrepare changelist = expected changelist := by
  cases changelist with
  | nil => rfl
  | struct members => rfl
  | ary items =>
      refine ary2eventlist_structs fun item hitem => ?_
      cases hary : item.isAry with
      | false => rfl
      | true => exact absurd ⟨item, hitem, hary⟩ ha
  | other o => exact hs.elim

theorem prepare_array (ha : HasArray changelist) :
    (changelistPrepare changelist = expected changelist ∨
      changelistPrepare changelist = .error unsupported) ∧
    ∀ records, changelistPrepare changelist ≠ .ok records := by
  cases changelist with
  | ary items =>
      refine ⟨ary2eventlist_cases items, fun records hok => ?_⟩
      obtain ⟨item, hitem, hary⟩ := ha
      rw [ary2eventlist_not_ary hok item hitem] at hary
      cases hary
  | _ => exact ha.elim

theorem spKevent_documented {records : List Record} (h : spKevent sizes changelist call = .ok records) :
    Documented changelist records := by
  obtain ⟨hs, hprepared⟩ := spKevent_prepares h
  have ha : ¬HasArray changelist := fun ha => (prepare_array ha).2 records hprepared
  rw [prepare_structs hs ha] at hprepared
  exact (expected_ok_iff changelist records).mp hprepared

end Call

-- An error of the extension itself or of a field.
def Failure.Accounted : Failure → Prop
  | .type _ | .field _ => True
  | _ => False

theorem convert_accounted {num2 : Int → Except Err Int} {value : Value} {f : Failure}
    (h : convert num2 value = .error f) : f.Accounted := by
  unfold convert at h
  split at h
  · cases h
    trivial
  · split at h
    · cases h
      trivial
    · cases h

theorem evSet_accounted {entries : List Value} {message : String} {f : Failure}
    (h : evSet entries message = .error f) : f.Accounted := by
  unfold evSet at h
  split at h
  · simp only [Except.bind_error_iff] at h
    rcases h with h | ⟨_, _, h | ⟨_, _, h | ⟨_, _, h | ⟨_, _, h | ⟨_, _, h⟩⟩⟩⟩⟩
    · exact convert_accounted h
    · exact convert_accounted h
    · exact convert_accounted h
    · exact convert_accounted h
    · exact convert_accounted h
    · cases h
  · cases h
    trivial

theorem expectedRecord_accounted {item : Item} {f : Failure} (h : expectedRecord item = .error f) :
    f.Accounted := by
  cases item with
  | struct members => exact evSet_accounted h
  | ary elements => exact evSet_accounted h
  | other o =>
      cases h
      trivial

theorem expected_accounted {changelist : Argument} {f : Failure} (h : expected changelist = .error f) :
    f.Accounted := by
  cases changelist with
  | nil => cases h
  | struct members =>
      cases hm : expectedRecord (.struct members) with
      | error e =>
          simp only [expected, hm, Except.map, Except.error.injEq] at h
          exact h ▸ expectedRecord_accounted hm
      | ok r => simp [expected, hm, Except.map] at h
  | ary items =>
      obtain ⟨item, _, he⟩ := Except.mapM_error h
      exact expectedRecord_accounted he
  | other o =>
      cases h
      trivial

section Claim

variable {sizes : Sizes} {changelist : Argument} {call : Call} {nevents : Nat}

theorem converts_of_expected {outcome : Except Failure (List Record)}
    (h : outcome = expected changelist) : Converts changelist outcome := by
  refine ⟨fun records hd => ?_, fun hno => ?_⟩
  · rw [h]
    exact (expected_ok_iff changelist records).mpr hd
  · cases he : expected changelist with
    | ok records => exact absurd ⟨records, (expected_ok_iff changelist records).mp he⟩ hno
    | error f => exact ⟨f, h.trans he, Or.inr rfl⟩

theorem converts_of_type {outcome : Except Failure (List Record)} {message : String}
    (h : outcome = .error (.type message)) (hno : ¬∃ records, Documented changelist records) :
    Converts changelist outcome :=
  ⟨fun records hd => absurd ⟨records, hd⟩ hno, fun _ => ⟨_, h, Or.inl ⟨message, rfl⟩⟩⟩

-- Something that is neither a TypeError nor the error of a field meets no
-- changelist.
theorem not_converts {outcome : Except Failure (List Record)} {f : Failure} (h : outcome = .error f)
    (hf : ¬f.Accounted) : ¬Converts changelist outcome := by
  intro hc
  cases he : expected changelist with
  | ok records =>
      have hok := hc.submits records ((expected_ok_iff changelist records).mp he)
      rw [h] at hok
      cases hok
  | error g =>
      have hno : ¬∃ records, Documented changelist records := by
        rintro ⟨records, hd⟩
        have hok := (expected_ok_iff changelist records).mpr hd
        rw [he] at hok
        cases hok
      obtain ⟨k, hk, hk'⟩ := hc.raises hno
      obtain rfl : f = k := Except.error.inj (h.symm.trans hk)
      rcases hk' with ⟨message, rfl⟩ | hk'
      · exact hf trivial
      · exact hf (expected_accounted hk')

end Claim

end SleepyPenguin.Kqueue.Conversion
