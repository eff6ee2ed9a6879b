import Whale.Lib.Collect
import Whale.Linker.ArchiveRoundTrip

set_option autoImplicit false

/-! # Reading a whole archive

The reader goes over the entries one by one. What it has at the end is what the entries stand for,
and it gets there if and only if that is within the limits. -/

namespace Whale.Linker.Archive

/-! ## All entries -/

variable {input : List UInt8}

theorem dataSlice_bytes {i : Item} {payload : Slice} (h : payload.bytes input = i.payload) :
    (i.dataSlice payload).bytes input = i.data := by
  have hdrop : (i.dataSlice payload).bytes input = (payload.bytes input).drop i.before.length := by
    unfold Item.dataSlice Slice.bytes slice
    rw [List.drop_take, List.drop_drop]
  rw [hdrop, h]
  unfold Item.payload
  exact List.drop_left

variable {table : Option (List UInt8)}

/-- The table of long names behind an entry is where the reader keeps it. -/
theorem tableIs_after {e : Entry} {p : Parse} (htable : TableIs input p.longNames table)
    (hlocated : Located input p.cursor e) :
    TableIs input (p.after e).longNames (e.item.table table) := by
  show TableIs input (e.item.longNamesSlice ⟨p.cursor + 60, e.item.payload.length⟩ p.longNames)
    (e.item.table table)
  have hpayload := hlocated.payload
  have hinside := hlocated.header
  cases hi : e.item with
  | member name form data => exact htable
  | longNames t =>
      rw [hi] at hpayload hinside
      exact ⟨_, rfl, hinside, hpayload⟩
  | index wide data => exact htable

variable {limits : Limits} {entries : List Entry}

theorem Parse.Fits.start {p : Parse} (h : (entries.foldl Parse.after p).Fits limits) :
    p.Fits limits := by
  induction entries generalizing p with
  | nil => exact h
  | cons e entries ih => exact (ih h).back

/-- Entries are read up to the end when the variables there are within the limits. -/
theorem readMembers_ok_iff (hwords : limits.InWords) (hinput : input.length ≤ maxInput) {fuel : Nat}
    {pre : List UInt8} {p : Parse} (hshape : input = pre ++ entries.flatMap Entry.encode)
    (hcursor : p.cursor = pre.length) (htable : TableIs input p.longNames table)
    (hentries : WellFormed table entries) (hp : p.Fits limits)
    (hfuel : (entries.flatMap Entry.encode).length ≤ fuel) {q : Parse} :
    readMembers input limits fuel p = .ok q ↔
      (entries.foldl Parse.after p).Fits limits ∧ q = entries.foldl Parse.after p := by
  -- `pre` is what the entries read so far wrote, and the cursor stands at its end.
  induction entries generalizing fuel pre p table with
  | nil =>
      unfold readMembers
      have hend : ¬ p.cursor < input.length := by
        rw [hcursor, hshape, List.flatMap_nil, List.append_nil]
        exact Nat.lt_irrefl _
      rw [if_neg hend, pure_eq_ok, Except.ok.injEq]
      exact ⟨fun h => ⟨hp, h.symm⟩, fun h => h.2.symm⟩
  | cons e entries ih =>
      obtain ⟨hfits, hitem, hrest⟩ := hentries
      rw [List.flatMap_cons] at hshape hfuel
      have hlocated : Located input p.cursor e := by
        rw [hcursor]
        exact located hfits hshape
      have hlength := e.length_encode hfits
      have hmore : p.cursor < input.length :=
        calc p.cursor < p.cursor + 60 + e.item.payload.length := by omega
          _ ≤ input.length := hlocated.header
      rw [List.length_append] at hfuel
      obtain ⟨fuel, rfl⟩ : ∃ n, fuel = n + 1 := ⟨fuel - 1, by omega⟩
      have hih : (p.after e).Fits limits → (readMembers input limits fuel (p.after e) = .ok q ↔
          (entries.foldl Parse.after (p.after e)).Fits limits ∧
            q = entries.foldl Parse.after (p.after e)) := by
        intro hafter
        have hshape' : input = (pre ++ e.encode) ++ entries.flatMap Entry.encode := by
          rw [hshape, List.append_assoc]
        refine ih hshape' ?_ (tableIs_after htable hlocated) hrest hafter ?_
        · rw [List.length_append, ← hcursor]
          rfl
        · omega
      unfold readMembers
      rw [if_pos hmore]
      show (readMember input limits p >>= readMembers input limits fuel) = .ok q ↔
        (entries.foldl Parse.after (p.after e)).Fits limits ∧
          q = entries.foldl Parse.after (p.after e)
      rw [bind_ok_iff]
      constructor
      · rintro ⟨r, hr, h⟩
        obtain ⟨hafter, rfl⟩ :=
          (readMember_ok_iff hwords hinput hlocated hfits htable hitem hp).mp hr
        exact (hih hafter).mp h
      · intro h
        have hafter := h.1.start
        refine ⟨p.after e, ?_, (hih hafter).mpr h⟩
        exact (readMember_ok_iff hwords hinput hlocated hfits htable hitem hp).mpr ⟨hafter, rfl⟩

/-! ## What is there at the end -/

theorem foldl_after_work (entries : List Entry) (p : Parse) :
    (entries.foldl Parse.after p).work = p.work + (entries.map fun e => e.item.work).sum :=
  foldl_measure (fun _ _ => rfl) entries p

theorem foldl_after_names (entries : List Entry) (p : Parse) :
    (entries.foldl Parse.after p).names = p.names + totalNames entries :=
  foldl_measure (fun _ _ => rfl) entries p

theorem foldl_after_strings (entries : List Entry) (p : Parse) :
    (entries.foldl Parse.after p).strings = p.strings + totalStrings entries :=
  foldl_measure (fun _ _ => rfl) entries p

theorem objects_cons (e : Entry) (entries : List Entry) :
    objects (e :: entries) = e.item.object.toList ++ objects entries := by
  unfold objects
  rw [List.filterMap_cons]
  cases e.item.object <;> rfl

theorem length_foldl_after_members (entries : List Entry) (p : Parse) :
    (entries.foldl Parse.after p).members.length = p.members.length + (objects entries).length := by
  induction entries generalizing p with
  | nil => rfl
  | cons e entries ih =>
      have hstep : (p.after e).members.length = p.members.length + e.item.object.toList.length := by
        unfold Parse.after
        cases e.item.object <;> simp
      rw [List.foldl_cons, ih, hstep, objects_cons, List.length_append, Nat.add_assoc]

/-- The name and the data of a member. -/
def ArchiveMember.contents (input : List UInt8) (m : ArchiveMember) : String × List UInt8 :=
  (m.name, m.bytes.bytes input)

/-- The members at the end are the objects of the entries. -/
theorem foldl_after_members {input pre : List UInt8} {p : Parse}
    (hshape : input = pre ++ entries.flatMap Entry.encode) (hcursor : p.cursor = pre.length)
    (hentries : WellFormed table entries) :
    (entries.foldl Parse.after p).members.map (ArchiveMember.contents input) =
      p.members.map (ArchiveMember.contents input) ++ objects entries := by
  induction entries generalizing pre p table with
  | nil => simp [objects]
  | cons e entries ih =>
      obtain ⟨hfits, -, hrest⟩ := hentries
      rw [List.flatMap_cons] at hshape
      have hlocated : Located input p.cursor e := by
        rw [hcursor]
        exact located hfits hshape
      have hnext : (p.after e).cursor = (pre ++ e.encode).length := by
        rw [List.length_append, ← hcursor]
        rfl
      rw [List.foldl_cons, ih (by rw [hshape, List.append_assoc]) hnext hrest, objects_cons,
        ← List.append_assoc]
      congr 1
      have hdata := dataSlice_bytes hlocated.payload
      show (p.members ++ _).map _ = _
      rw [List.map_append]
      congr 1
      cases hobject : e.item.object with
      | none => rfl
      | some o =>
          have hitem : o.2 = e.item.data := by
            unfold Item.object at hobject
            split at hobject
            · split at hobject
              · cases hobject
              · cases hobject
                rename_i hi _
                rw [hi]
                rfl
            · cases hobject
          simp only [Option.map_some, Option.toList_some, List.map_cons, List.map_nil]
          unfold ArchiveMember.contents
          rw [hdata, ← hitem]

/-! ## Archives -/

/-- The variables in front of the first entry. -/
def Parse.start : Parse where
  work := 8
  cursor := 8
  members := []
  names := 0
  strings := 0
  longNames := none

theorem start_fits_iff :
    (encode entries).length ≤ maxInput ∧ (entries.foldl Parse.after Parse.start).Fits limits ↔
      WithinLimits limits entries := by
  have hwork : (entries.foldl Parse.after Parse.start).work = totalWork entries :=
    foldl_after_work entries Parse.start
  have hnames : (entries.foldl Parse.after Parse.start).names = totalNames entries :=
    (foldl_after_names entries Parse.start).trans (Nat.zero_add _)
  have hstrings : (entries.foldl Parse.after Parse.start).strings = totalStrings entries :=
    (foldl_after_strings entries Parse.start).trans (Nat.zero_add _)
  have hmembers : (entries.foldl Parse.after Parse.start).members.length =
      (objects entries).length :=
    (length_foldl_after_members entries Parse.start).trans (Nat.zero_add _)
  constructor
  · rintro ⟨hinput, h⟩
    refine ⟨hinput, ?_, ?_, ?_, ?_⟩
    · exact hmembers.ge.trans h.members
    · exact hnames.ge.trans h.names
    · exact hstrings.ge.trans h.strings
    · exact hwork.ge.trans h.work
  · intro h
    refine ⟨h.input, ?_, ?_, ?_, ?_⟩
    · exact hwork.le.trans h.work
    · exact hnames.le.trans h.names
    · exact hstrings.le.trans h.strings
    · exact hmembers.le.trans h.members

/-- An archive is read if and only if it is within the limits. -/
theorem parseArchive_encode_ok_iff (hwords : limits.InWords) (hentries : WellFormed none entries)
    {r : List ArchiveMember × Nat × Nat} :
    parseArchive (encode entries) limits = .ok r ↔ WithinLimits limits entries ∧
      r = ((entries.foldl Parse.after Parse.start).members, totalStrings entries,
        totalWork entries) := by
  have hmagic : magic.isPrefixOf (encode entries) = true :=
    List.isPrefixOf_iff_prefix.mpr (List.prefix_append _ _)
  have hfuel : (entries.flatMap Entry.encode).length ≤ (encode entries).length := by
    unfold encode
    rw [List.length_append]
    exact Nat.le_add_left _ _
  have hstrings : (entries.foldl Parse.after Parse.start).strings = totalStrings entries :=
    (foldl_after_strings entries Parse.start).trans (Nat.zero_add _)
  have hwork : (entries.foldl Parse.after Parse.start).work = totalWork entries :=
    foldl_after_work entries Parse.start
  have hread : (encode entries).length ≤ maxInput → 8 ≤ limits.maxWork → ∀ q,
      readMembers (encode entries) limits (encode entries).length Parse.start = .ok q ↔
        (entries.foldl Parse.after Parse.start).Fits limits ∧
          q = entries.foldl Parse.after Parse.start := by
    intro hinput hcharge q
    have htable : TableIs (encode entries) Parse.start.longNames none := rfl
    refine readMembers_ok_iff hwords hinput rfl rfl htable hentries ?_ hfuel
    exact ⟨hcharge, Nat.zero_le _, Nat.zero_le _, Nat.zero_le _⟩
  unfold parseArchive
  rw [require_of hmagic, ok_bind, require_then_ok_iff, chargeArchive_then_ok_iff hwords.work,
    Nat.zero_add]
  show _ ∧ _ ∧ (readMembers (encode entries) limits (encode entries).length Parse.start >>= _) =
    .ok r ↔ _
  rw [bind_ok_iff, ← start_fits_iff]
  constructor
  · rintro ⟨hinput, hcharge, q, hq, h⟩
    obtain ⟨hfits, rfl⟩ := (hread hinput hcharge q).mp hq
    rw [hstrings, hwork] at h
    cases h
    exact ⟨⟨hinput, hfits⟩, rfl⟩
  · rintro ⟨⟨hinput, hfits⟩, rfl⟩
    have hcharge : 8 ≤ limits.maxWork := hfits.start.work
    refine ⟨hinput, hcharge, _, (hread hinput hcharge _).mpr ⟨hfits, rfl⟩, ?_⟩
    rw [hstrings, hwork]
    rfl

/-- What was written is read back if it is within the limits, and is an error otherwise. Whatever
the input is, no part outside it is read, and the members are disjoint parts of it. -/
theorem parseArchive_inverts :
    (∀ (entries : List Entry) (limits : Limits), limits.InWords → WellFormed none entries →
      (WithinLimits limits entries → ∃ members,
        parseArchive (encode entries) limits =
          .ok (members, totalStrings entries, totalWork entries) ∧
        members.map (ArchiveMember.contents (encode entries)) = objects entries) ∧
      (¬ WithinLimits limits entries → ∃ e, parseArchive (encode entries) limits = .error e)) ∧
    ∀ (input : List UInt8) (limits : Limits),
      parseArchive input limits ≠ .error .panic ∧
      ∀ members strings work, parseArchive input limits = .ok (members, strings, work) →
        (∀ m ∈ members, m.bytes.Inside input) ∧
          members.Pairwise fun a b => a.bytes.Before b.bytes := by
  constructor
  · intro entries limits hwords hentries
    refine ⟨fun h => ?_, fun h => ?_⟩
    · refine ⟨_, (parseArchive_encode_ok_iff hwords hentries).mpr ⟨h, rfl⟩, ?_⟩
      exact foldl_after_members (rfl : encode entries = magic ++ _) rfl hentries
    · cases hparse : parseArchive (encode entries) limits with
      | error e => exact ⟨e, rfl⟩
      | ok r => exact absurd ((parseArchive_encode_ok_iff hwords hentries).mp hparse).1 h
  · intro input limits
    refine ⟨fun h => ?_, fun members strings work h => ?_⟩
    · exact (parseArchive_spec input limits).of_error h rfl
    · have hparsed := (parseArchive_spec input limits).of_ok h
      exact ⟨hparsed.inside, hparsed.disjoint⟩

/-! ## Instances -/

/-- The widest limits. -/
def widest : Limits := ⟨wordMax, wordMax, wordMax⟩

theorem widest_inWords : widest.InWords := ⟨by decide, by decide, by decide⟩

def mixedEntries : List Entry := [
  { item := .index false [0, 0, 0, 0], fields := List.replicate 32 0x20 },
  { item := .longNames (asBytes "a_long_member_name.o/\n"), fields := List.replicate 32 0x20 },
  { item := .member "a.o" (.short true) [1, 2, 3], fields := List.replicate 32 0x20 },
  { item := .member "a_long_member_name.o" (.long 0 1) [4], fields := List.replicate 32 0x20 },
  { item := .member "b c.o" (.bsd 2) [], fields := List.replicate 32 0x20 }]

theorem goodName_of_last {name : String} {c : Char} (hzero : '\x00' ∉ name.toList)
    (hlineFeed : '\n' ∉ name.toList) (hlast : name.toList.getLast? = some c)
    (hc : c ≠ '/' ∧ Text.isWhite c = false) : GoodName name := by
  refine ⟨?_, hzero, hlineFeed, ?_⟩
  · rintro rfl
    cases hlast
  · intro d hd
    rw [hlast] at hd
    cases hd
    exact hc

theorem mixedEntries_wellFormed : WellFormed none mixedEntries := by
  refine ⟨⟨by decide, rfl, by decide⟩, trivial, ⟨by decide, rfl, by decide⟩, trivial,
    ⟨by decide, rfl, by decide⟩, ⟨?_, by decide, by decide⟩, ⟨by decide, rfl, by decide⟩, ⟨?_, ?_⟩,
    ⟨by decide, rfl, by decide⟩, ⟨?_, trivial⟩, trivial⟩
  · exact goodName_of_last (c := 'o') (by decide) (by decide) rfl (by decide)
  · exact goodName_of_last (c := 'o') (by decide) (by decide) rfl (by decide)
  · exact ⟨_, rfl, [], [], 0x0a, by decide, rfl, .inl rfl⟩
  · exact goodName_of_last (c := 'o') (by decide) (by decide) rfl (by decide)

set_option maxRecDepth 4000 in
theorem mixedEntries_withinLimits : WithinLimits widest mixedEntries :=
  ⟨by decide, by decide, by decide, by decide, by decide⟩

theorem parseArchive_inverts_mixed :
    ∃ members, parseArchive (encode mixedEntries) widest =
        .ok (members, totalStrings mixedEntries, totalWork mixedEntries) ∧
      members.map (ArchiveMember.contents (encode mixedEntries)) =
        [("a.o", [1, 2, 3]), ("a_long_member_name.o", [4]), ("b c.o", [])] :=
  (parseArchive_inverts.1 mixedEntries widest widest_inWords mixedEntries_wellFormed).1
    mixedEntries_withinLimits

/-- More members than the reader accepts. -/
def manyEntries : List Entry :=
  List.replicate 4097 { item := .member "a" (.short true) [], fields := List.replicate 32 0x20 }

theorem wellFormed_replicate {e : Entry} (hfits : e.Fits) (hitem : ∀ table, e.item.WellFormed table)
    (n : Nat) : ∀ table, WellFormed table (List.replicate n e) := by
  induction n with
  | zero => exact fun _ => trivial
  | succ n ih => exact fun table => ⟨hfits, hitem table, ih _⟩

theorem length_objects_replicate {e : Entry} {o : String × List UInt8} (h : e.item.object = some o)
    (n : Nat) : (objects (List.replicate n e)).length = n := by
  unfold objects
  rw [List.filterMap_replicate_of_some (f := fun e : Entry => e.item.object) h,
    List.length_replicate]

/-- A limit on the number of members: an archive with more of them is an error. -/
theorem parseArchive_manyEntries : WellFormed none manyEntries ∧
    ∃ e, parseArchive (encode manyEntries) widest = .error e := by
  have hgood : GoodName "a" := goodName_of_last (c := 'a') (by decide) (by decide) rfl (by decide)
  have hentries : WellFormed none manyEntries := by
    refine wellFormed_replicate ⟨by decide, rfl, by decide⟩ (fun table => ?_) _ _
    exact ⟨hgood, by decide, by decide⟩
  refine ⟨hentries, ?_⟩
  cases hparse : parseArchive (encode manyEntries) widest with
  | error e => exact ⟨e, rfl⟩
  | ok r =>
      have hwithin := ((parseArchive_encode_ok_iff widest_inWords hentries).mp hparse).1
      have hmembers := hwithin.members
      unfold manyEntries at hmembers
      rw [length_objects_replicate (o := ("a", [])) rfl] at hmembers
      exact absurd hmembers (by decide)

end Whale.Linker.Archive
