import SleepyPenguin.Kqueue.Conversion

-- The fields of a kevent, from Ruby to struct kevent and back.
namespace SleepyPenguin.Kqueue.Fields

open Conversion

-- struct kevent, where a long and a pointer have 64 bits.
structure Kevent where
  ident : BitVec 64
  filter : BitVec 16
  flags : BitVec 16
  fflags : BitVec 32
  data : BitVec 64
  udata : Value
  deriving DecidableEq, Repr

-- EV_SET into the fields.
def packed (r : Record) : Kevent :=
  ⟨.ofInt 64 r.ident, .ofInt 16 r.filter, .ofInt 16 r.flags, .ofInt 32 r.fflags, .ofInt 64 r.data, r.udata⟩

-- What the block is given.
def yieldKevent (event : Kevent) : List Value :=
  [.int event.ident.toNat, .int event.filter.toInt, .int event.flags.toNat, .int event.fflags.toNat,
    .int event.data.toInt, event.udata]

-- object_id and ObjectSpace._id2ref, at a time when some objects are alive.
structure Ids where
  objectId : Value → Int
  id2ref : Int → Except Err Value
  alive : Value → Prop
  recovers : ∀ v, alive v → id2ref (objectId v) = .ok v
  refers : ∀ id v, id2ref id = .ok v → objectId v = id

-- `item[5]` where there is nothing.
def nil : Value := .object 0 (.error none)

-- What `item[5]` raises: an IndexError for a struct with fewer members, or the
-- NoMethodError of something that has no elements.
inductive Refusal
  | index
  | noMethod
  deriving DecidableEq, Repr

-- `item = item.dup; item[5] = item[5].object_id`. A short array grows.
def Ids.withObjectId (ids : Ids) : Item → Except Refusal Item
  | .struct members =>
      match members[5]? with
      | some udata => .ok (.struct (members.set 5 (.int (ids.objectId udata))))
      | none => .error .index
  | .ary elements =>
      .ok (.ary ((elements ++ List.replicate (6 - elements.length) nil).set 5
        (.int (ids.objectId (elements[5]?.getD nil)))))
  | .other _ => .error .noMethod

-- `changelist = [ changelist ] if Struct === changelist`
def itemsOf : Argument → List Item
  | .nil | .other _ => []
  | .struct members => [.struct members]
  | .ary items => items

-- The changelist that Kqueue#kevent hands to Kqueue::IO#kevent.
def Ids.changelist (ids : Ids) : Argument → Except Refusal Argument
  | .nil => .ok .nil
  | .other _ => .error .noMethod
  | changelist => ((itemsOf changelist).mapM ids.withObjectId).map .ary

-- The Kevent that its block is given.
def Ids.yieldKevent (ids : Ids) (event : Kevent) : Except Err (List Value) :=
  match event.udata with
  | .int id => (ids.id2ref id).map fun udata => (Fields.yieldKevent event).set 5 udata
  | .object _ _ => .error .typeError

def entries : Item → List Value
  | .struct members => members
  | .ary elements => elements
  | .other _ => []

def entriesOf (changelist : Argument) : List (List Value) := (itemsOf changelist).map entries

-- Integers, and none of them negative for an unsigned field.
def Exact (entries : List Value) : Prop :=
  ∃ ident filter flags fflags data udata, 0 ≤ ident ∧ 0 ≤ flags ∧ 0 ≤ fflags ∧
    entries = [.int ident, .int filter, .int flags, .int fflags, .int data, udata]

section Field

theorem unsigned_bounds {low high stored : Int} {value : Value} (h : Unsigned low high value stored)
    (hpos : 0 < high) :
    0 ≤ stored ∧ stored < high := by
  obtain ⟨n, _, _, _, rfl⟩ := h
  exact ⟨Int.emod_nonneg n (Int.ne_of_gt hpos), Int.emod_lt_of_pos n hpos⟩

theorem unsigned_nat {low high : Int} {n : Nat} (hlow : low ≤ 0) (hn : (n : Int) < high) :
    Unsigned low high (.int n) n :=
  ⟨n, rfl, by omega, hn, (Int.emod_eq_of_lt (Int.natCast_nonneg n) hn).symm⟩

theorem toNat_ofInt (w : Nat) {n : Int} (h0 : 0 ≤ n) (hn : n < 2 ^ w) :
    ((BitVec.ofInt w n).toNat : Int) = n := by
  have hcast : ((2 ^ w : Nat) : Int) = 2 ^ w := by simp
  rw [BitVec.toNat_ofInt, hcast, Int.emod_eq_of_lt h0 hn]
  exact Int.toNat_of_nonneg h0

-- The fields hold what is stored in them.
theorem yieldKevent_packed {l : List Value} {r : Record} (h : Carries l r) :
    yieldKevent (packed r) = [.int r.ident, .int r.filter, .int r.flags, .int r.fflags, .int r.data,
      r.udata] := by
  obtain ⟨hident, hfilter, hflags, hfflags, hdata, _⟩ := h
  obtain ⟨hi0, hi⟩ := unsigned_bounds hident (by decide)
  obtain ⟨hfl0, hfl⟩ := unsigned_bounds hflags (by decide)
  obtain ⟨hff0, hff⟩ := unsigned_bounds hfflags (by decide)
  have hident' := toNat_ofInt 64 hi0 hi
  have hflags' := toNat_ofInt 16 hfl0 hfl
  have hfflags' := toNat_ofInt 32 hff0 hff
  have hfilter' := BitVec.toInt_ofInt_eq_self (w := 16) (by decide) hfilter.2.1 hfilter.2.2
  have hdata' := BitVec.toInt_ofInt_eq_self (w := 64) (by decide) hdata.2.1 hdata.2.2
  simp only [yieldKevent, packed, hident', hflags', hfflags', hfilter', hdata']

theorem carries_udata {l : List Value} {r : Record} (h : Carries l r) : l[5]? = some r.udata := by
  obtain ⟨_, _, _, _, _, hudata⟩ := h
  rw [hudata]
  rfl

def unpacked (event : Kevent) : Record :=
  ⟨event.ident.toNat, event.filter.toInt, event.flags.toNat, event.fflags.toNat,
    event.data.toInt, event.udata⟩

theorem packed_unpacked (event : Kevent) : packed (unpacked event) = event := by
  simp [packed, unpacked]

theorem carries_yieldKevent (event : Kevent) : Carries (yieldKevent event) (unpacked event) := by
  have hident := event.ident.isLt
  have hflags := event.flags.isLt
  have hfflags := event.fflags.isLt
  refine ⟨unsigned_nat (by decide) (by omega), ⟨rfl, ?_, ?_⟩, unsigned_nat (by decide) (by omega),
    unsigned_nat (by decide) (by omega), ⟨rfl, ?_, ?_⟩, rfl⟩
  · exact event.filter.le_toInt
  · exact event.filter.toInt_lt
  · exact event.data.le_toInt
  · exact event.data.toInt_lt

-- What comes back is what was given exactly where the C conversion had nothing
-- to convert.
theorem yieldKevent_iff_exact {l : List Value} {r : Record} (h : Carries l r) :
    yieldKevent (packed r) = l ↔ Exact l := by
  rw [yieldKevent_packed h]
  obtain ⟨hident, hfilter, hflags, hfflags, hdata, hudata⟩ := h
  constructor
  · intro heq
    exact ⟨r.ident, r.filter, r.flags, r.fflags, r.data, r.udata, (unsigned_bounds hident (by decide)).1,
      (unsigned_bounds hflags (by decide)).1, (unsigned_bounds hfflags (by decide)).1, heq.symm⟩
  · rintro ⟨ident, filter, flags, fflags, data, udata, hi0, hfl0, hff0, heq⟩
    cases heq
    rw [unsigned_of_nonneg hident rfl hi0, unsigned_of_nonneg hflags rfl hfl0,
      unsigned_of_nonneg hfflags rfl hff0,
      Except.ok.inj hfilter.1, Except.ok.inj hdata.1, hudata]

end Field

section Changelist

variable {sizes : Sizes} {changelist : Argument} {call : Conversion.Call} {nevents : Nat}

theorem unpackEvent_ok_iff (item : Item) (r : Record) :
    Conversion.unpackEvent item = .ok r ↔ item.isAry = false ∧ Carries (entries item) r := by
  cases item with
  | struct members =>
      rw [Conversion.unpackEvent, evSetStruct, evSet_ok_iff]
      exact ⟨fun h => ⟨rfl, h⟩, fun h => h.2⟩
  | ary elements =>
      exact ⟨fun h => ⟨unpackEvent_not_ary h, by cases unpackEvent_not_ary h⟩,
        fun h => (by cases h.1)⟩
  | other o => exact ⟨fun h => (by cases h), fun h => (by cases h.2)⟩

theorem changelistPrepare_ok {records : List Record} (hs : Supported changelist)
    (h : changelistPrepare changelist = .ok records) :
    List.Forall₂ (fun item r => Conversion.unpackEvent item = .ok r) (itemsOf changelist) records := by
  cases changelist with
  | nil =>
      cases h
      exact List.Forall₂.nil
  | struct members =>
      simp only [changelistPrepare] at h
      cases hr : Conversion.unpackEvent (.struct members) with
      | error f =>
          rw [hr] at h
          cases h
      | ok r =>
          rw [hr] at h
          cases h
          exact List.Forall₂.cons hr List.Forall₂.nil
  | ary items => exact (Except.mapM_ok_iff _ _ _).mp h
  | other o => exact hs.elim

-- A call that gets to kevent(2) has converted every element.
theorem spKevent_ok {records : List Record} (h : spKevent sizes changelist call = .ok records) :
    List.Forall₂ (fun item r => item.isAry = false ∧ Carries (entries item) r)
      (itemsOf changelist) records := by
  obtain ⟨hs, hprepared⟩ := spKevent_prepares h
  exact (changelistPrepare_ok hs hprepared).imp fun item r => (unpackEvent_ok_iff item r).mp

-- The structs of machine records, given as a changelist.
theorem spKevent_structs (events : List Kevent) (hv : Valid call nevents)
    (hroom : Room sizes call.memory (.ary (events.map fun event => .struct (yieldKevent event))) nevents) :
    ∃ records, spKevent sizes (.ary (events.map fun event => .struct (yieldKevent event))) call =
      .ok records ∧
      records.map packed = events := by
  refine ⟨events.map unpacked, ?_, ?_⟩
  · have hs : Supported (.ary (events.map fun event => .struct (yieldKevent event))) := trivial
    rw [spKevent_room hs hv hroom]
    show ary2eventlist _ = _
    simp only [ary2eventlist, Except.mapM_ok_iff, List.forall₂_map_left_iff, List.forall₂_map_right_iff,
      unpackEvent_ok_iff]
    exact List.forall₂_same.mpr fun event _ => ⟨rfl, carries_yieldKevent event⟩
  · rw [List.map_map]
    exact List.map_id''  packed_unpacked events

end Changelist

theorem map_yieldKevent_iff_exact {items : List Item} {records : List Record}
    (h : List.Forall₂ (fun item r => item.isAry = false ∧ Carries (entries item) r) items records) :
    records.map (fun r => yieldKevent (packed r)) = items.map entries ↔
      ∀ item ∈ items, Exact (entries item) := by
  induction h with
  | nil => simp
  | cons hfirst _ ih =>
      simp only [List.map_cons, List.cons.injEq, List.forall_mem_cons, yieldKevent_iff_exact hfirst.2, ih]

section Ids

variable (ids : Ids) {item prepared : Item} {r : Record}

-- Writing one place of a list over is undone by what stood there.
theorem set_eq_iff {α : Type} {l m : List α} {n : Nat} {a b : α} (hl : l[n]? = some b)
    (hm : m[n]? = some a) :
    l.set n a = m ↔ l = m.set n b := by
  constructor
  · rintro rfl
    rw [List.set_set, List.set_of_getElem? hl]
  · rintro rfl
    rw [List.set_set, List.set_of_getElem? hm]

theorem exact_set_iff {l : List Value} {udata : Value} (hudata : l[5]? = some udata) (v : Value) :
    Exact (l.set 5 v) ↔ Exact l := by
  constructor
  · rintro ⟨ident, filter, flags, fflags, data, u, hi, hfl, hff, heq⟩
    refine ⟨ident, filter, flags, fflags, data, udata, hi, hfl, hff, ?_⟩
    have hset := (set_eq_iff (by rw [List.getElem?_set_self (List.getElem?_eq_some_iff.mp hudata).1])
      hudata).mpr
      (rfl : l.set 5 v = l.set 5 v)
    rw [← hset, heq]
    rfl
  · rintro ⟨ident, filter, flags, fflags, data, u, hi, hfl, hff, rfl⟩
    exact ⟨ident, filter, flags, fflags, data, v, hi, hfl, hff, rfl⟩

theorem withObjectId_ok (h : ids.withObjectId item = .ok prepared) (hary : prepared.isAry = false) :
    ∃ members udata, item = .struct members ∧ members[5]? = some udata ∧
      prepared = .struct (members.set 5 (.int (ids.objectId udata))) := by
  cases item with
  | struct members =>
      simp only [Ids.withObjectId] at h
      split at h
      · rename_i udata hudata
        cases h
        exact ⟨members, udata, rfl, hudata, rfl⟩
      · cases h
  | ary elements =>
      cases h
      cases hary
  | other o => cases h

-- A Kevent whose object is alive comes back exactly if its numbers do.
theorem ids_yieldKevent_iff {members : List Value} {udata : Value} (hudata : members[5]? = some udata)
    (hc : Carries (members.set 5 (.int (ids.objectId udata))) r) (halive : ids.alive udata) :
    ids.yieldKevent (packed r) = .ok members ↔ Exact members := by
  have hid : r.udata = .int (ids.objectId udata) := by
    have hlast := carries_udata hc
    rw [List.getElem?_set_self (List.getElem?_eq_some_iff.mp hudata).1] at hlast
    exact (Option.some.inj hlast).symm
  have hyield : ids.yieldKevent (packed r) = .ok ((yieldKevent (packed r)).set 5 udata) := by
    show (match r.udata with | .int id => _ | .object _ _ => _) = _
    rw [hid]
    simp only [ids.recovers udata halive]
    rfl
  have hlast : (yieldKevent (packed r))[5]? = some (.int (ids.objectId udata)) := by
    rw [← hid]
    rfl
  rw [hyield, Except.ok.injEq, set_eq_iff hlast hudata, yieldKevent_iff_exact hc, exact_set_iff hudata]

theorem ids_changelist_ok {changelist prepared : Argument} (h : ids.changelist changelist = .ok prepared) :
    List.Forall₂ (fun item item' => ids.withObjectId item = .ok item') (itemsOf changelist)
      (itemsOf prepared) := by
  have hmap : ∀ items : List Item, (items.mapM ids.withObjectId).map .ary = .ok prepared →
      List.Forall₂ (fun item item' => ids.withObjectId item = .ok item') items (itemsOf prepared) := by
    intro items h
    cases hitems : items.mapM ids.withObjectId with
    | error e =>
        rw [hitems] at h
        cases h
    | ok items' =>
        rw [hitems] at h
        cases h
        exact (Except.mapM_ok_iff _ _ _).mp hitems
  cases changelist with
  | nil =>
      cases h
      exact List.Forall₂.nil
  | struct members => exact hmap _ h
  | ary items => exact hmap _ h
  | other o => cases h

-- What is yielded is what was submitted, for every element.
theorem mapM_yieldKevent_iff_exact {items prepared : List Item} {records : List Record}
    (hitems : List.Forall₂ (fun item item' => ids.withObjectId item = .ok item') items prepared)
    (hrecords : List.Forall₂ (fun item r => item.isAry = false ∧ Carries (entries item) r) prepared records)
    (halive : ∀ item ∈ items, ∀ udata, (entries item)[5]? = some udata → ids.alive udata) :
    (records.mapM fun r => ids.yieldKevent (packed r)) = .ok (items.map entries) ↔
      ∀ item ∈ items, Exact (entries item) := by
  rw [Except.mapM_ok_iff]
  induction hitems generalizing records with
  | nil =>
      cases hrecords
      simp
  | cons hfirst _ ih =>
      obtain ⟨r, rest, ⟨hary, hcarries⟩, hrest, rfl⟩ := List.forall₂_cons_left_iff.mp hrecords
      obtain ⟨members, udata, rfl, hudata, rfl⟩ := withObjectId_ok ids hfirst hary
      have hone := ids_yieldKevent_iff ids hudata hcarries (halive _ List.mem_cons_self udata hudata)
      rw [List.map_cons, List.forall₂_cons, ih hrest fun item hitem =>
        halive item (List.mem_cons_of_mem _ hitem)]
      simp only [List.forall_mem_cons, entries, hone]

-- A Kevent that was yielded, given back.
theorem withObjectId_yielded {event : Kevent} {members : List Value}
    (h : ids.yieldKevent event = .ok members) :
    ids.withObjectId (.struct members) = .ok (.struct (yieldKevent event)) := by
  unfold Ids.yieldKevent at h
  split at h
  · rename_i id hid
    cases hudata : ids.id2ref id with
    | error e =>
        rw [hudata] at h
        cases h
    | ok udata =>
        rw [hudata] at h
        cases h
        have hlast : (yieldKevent event)[5]? = some (.int id) := by
          rw [← hid]
          rfl
        have hset : ((yieldKevent event).set 5 udata)[5]? = some udata := rfl
        simp only [Ids.withObjectId, hset, List.set_set, ids.refers id udata hudata,
          List.set_of_getElem? hlast]
  · cases h

end Ids

-- Whatever kevent yields can be given back as changes and is the same record
-- again, by Kqueue::IO or by Kqueue; and what the kernel reports as it was
-- submitted is yielded as it was given, but for the numbers that the C
-- conversion wraps.
theorem kevents_round_trip (sizes : Sizes) (call : Conversion.Call) :
    (∀ events nevents, Valid call nevents →
      Room sizes call.memory (.ary (events.map fun event => .struct (yieldKevent event))) nevents →
      ∃ records, spKevent sizes (.ary (events.map fun event => .struct (yieldKevent event))) call =
        .ok records ∧
        records.map packed = events) ∧
    (∀ changelist records, spKevent sizes changelist call = .ok records →
      (records.map (fun r => yieldKevent (packed r)) = entriesOf changelist ↔
        ∀ item ∈ itemsOf changelist, Exact (entries item))) ∧
    ∀ ids : Ids,
      (∀ events kevents nevents, events.mapM ids.yieldKevent = .ok kevents → Valid call nevents →
        Room sizes call.memory (.ary (kevents.map .struct)) nevents →
        ∃ prepared records, ids.changelist (.ary (kevents.map .struct)) = .ok prepared ∧
          spKevent sizes prepared call = .ok records ∧ records.map packed = events) ∧
      ∀ changelist prepared records, ids.changelist changelist = .ok prepared →
        spKevent sizes prepared call = .ok records →
        (∀ item ∈ itemsOf changelist, ∀ udata, (entries item)[5]? = some udata → ids.alive udata) →
        ((records.mapM fun r => ids.yieldKevent (packed r)) = .ok (entriesOf changelist) ↔
          ∀ item ∈ itemsOf changelist, Exact (entries item)) := by
  refine ⟨fun events nevents hv hroom => spKevent_structs events hv hroom,
    fun changelist records h => map_yieldKevent_iff_exact (spKevent_ok h), fun ids => ⟨?_, ?_⟩⟩
  · intro events kevents nevents hevents hv hroom
    have hprepared : ids.changelist (.ary (kevents.map .struct)) =
        .ok (.ary (events.map fun event => .struct (yieldKevent event))) := by
      have hall : (kevents.map Item.struct).mapM ids.withObjectId =
          .ok (events.map fun event => .struct (yieldKevent event)) := by
        rw [Except.mapM_ok_iff, List.forall₂_map_left_iff, List.forall₂_map_right_iff]
        exact (List.Forall₂.flip ((Except.mapM_ok_iff _ _ _).mp hevents)).imp fun _ _ h =>
          withObjectId_yielded ids h
      show ((kevents.map Item.struct).mapM ids.withObjectId).map Argument.ary = _
      rw [hall]
      rfl
    have hlength := ((Except.mapM_ok_iff _ _ _).mp hevents).length_eq
    have hsize : size (.ary (events.map fun event => .struct (yieldKevent event))) =
        size (.ary (kevents.map .struct)) := by
      simp [size, hlength]
    obtain ⟨records, hrecords, hpacked⟩ := spKevent_structs events hv
      ⟨hsize ▸ hroom.int, hsize ▸ hroom.bytes, hroom.memory⟩
    exact ⟨_, records, hprepared, hrecords, hpacked⟩
  · intro changelist prepared records hprepared h halive
    exact mapM_yieldKevent_iff_exact ids (ids_changelist_ok ids hprepared) (spKevent_ok h) halive

-- The object_ids of Integers.
def immediates : Ids where
  objectId
    | .int n => 2 * n + 1
    | .object _ _ => 0
  id2ref id := if id % 2 = 1 then .ok (.int (id / 2)) else .error .rangeError
  alive v := ∃ n, v = .int n
  recovers := by
    rintro _ ⟨n, rfl⟩
    have hodd : (2 * n + 1) % 2 = 1 := by omega
    have hhalf : (2 * n + 1) / 2 = n := by omega
    simp only [hodd, hhalf, if_true]
  refers := by
    intro id v h
    split at h
    · cases h
      show 2 * (id / 2) + 1 = id
      omega
    · cases h

-- One to be read and one to be written, with flags of all sixteen bits.
theorem kevents_round_trip_read :
    ([⟨3, -1, 1, 0, 0, .int 15⟩, ⟨4, -2, 0xFFFF, 7, -9, .int (-5)⟩] : List Record).mapM
        (fun r => immediates.yieldKevent (packed r)) =
      .ok [[.int 3, .int (-1), .int 1, .int 0, .int 0, .int 7],
        [.int 4, .int (-2), .int 0xFFFF, .int 7, .int (-9), .int (-3)]] := by
  refine (((kevents_round_trip ⟨64, 32⟩ ⟨none, false, .ok (), true, false⟩).2.2 immediates).2
    (.ary [.struct [.int 3, .int (-1), .int 1, .int 0, .int 0, .int 7],
      .struct [.int 4, .int (-2), .int 0xFFFF, .int 7, .int (-9), .int (-3)]])
    (.ary [.struct [.int 3, .int (-1), .int 1, .int 0, .int 0, .int 15],
      .struct [.int 4, .int (-2), .int 0xFFFF, .int 7, .int (-9), .int (-5)]]) _ rfl (by decide) ?_).mpr ?_
  · refine List.forall_mem_cons.mpr ⟨?_, List.forall_mem_singleton.mpr ?_⟩
    · intro udata hudata
      cases hudata
      exact ⟨7, rfl⟩
    · intro udata hudata
      cases hudata
      exact ⟨-3, rfl⟩
  · refine List.forall_mem_cons.mpr ⟨?_, List.forall_mem_singleton.mpr ?_⟩
    · exact ⟨3, -1, 1, 0, 0, .int 7, by decide, by decide, by decide, rfl⟩
    · exact ⟨4, -2, 0xFFFF, 7, -9, .int (-3), by decide, by decide, by decide, rfl⟩

end SleepyPenguin.Kqueue.Fields
