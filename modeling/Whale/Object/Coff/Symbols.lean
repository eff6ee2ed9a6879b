import Whale.Object.Coff.Read
import Whale.Object.Coff.Write

set_option autoImplicit false

/-! # Names in COFF objects

The string table only grows behind its size, so a name that was placed in it is read from
every later table (`Strings.name_spec`). -/

namespace Whale.Coff

/-! ## Name fields -/

/-- A text whose first byte is not zero denotes a positive number. -/
theorem field_pos {bs : List UInt8} {n : Nat} (hn : 0 < n) {b : UInt8} {rest : List UInt8}
    (h : bs = b :: rest) (hb : b ≠ 0) : field bs 0 n ≠ 0 := by
  obtain ⟨m, rfl⟩ : ∃ m, n = m + 1 := ⟨n - 1, by omega⟩
  rw [h, field, slice, List.drop_zero, List.take_succ_cons, leValue]
  have hpos : b.toNat ≠ 0 := fun h0 => hb (UInt8.toNat.inj h0)
  omega

theorem readSymbolName_short {name : String} (table : List UInt8) (hempty : name ≠ "")
    (hzero : '\x00' ∉ name.toList) :
    readSymbolName table (patch (List.replicate 8 0) 0 (asBytes name)) = some (asBytes name) := by
  have hbytes := zero_notMem_asBytes hzero
  obtain ⟨b, rest, hcons⟩ := List.exists_cons_of_ne_nil (asBytes_ne_nil hempty)
  have hb : b ≠ 0 := fun h => hbytes (hcons ▸ h ▸ List.mem_cons_self)
  unfold readSymbolName
  rw [patch_zeros, if_neg (field_pos (by decide) (by rw [hcons]; rfl) hb),
    untilZero_padded _ hbytes]

theorem readSectionName_short {name : String} (table : List UInt8) (hempty : name ≠ "")
    (hzero : '\x00' ∉ name.toList) (hslash : name.toList.head? ≠ some '/') :
    readSectionName table (patch (List.replicate 8 0) 0 (asBytes name)) =
      some (asBytes name) := by
  have hhead : (asBytes name ++ List.replicate (8 - (asBytes name).length) 0).head? ≠
      some 0x2f := by
    rw [List.head?_append_of_ne_nil _ (asBytes_ne_nil hempty)]
    exact fun h => hslash (head_asBytes_slash.mp h)
  unfold readSectionName
  rw [patch_zeros, if_neg hhead, untilZero_padded _ (zero_notMem_asBytes hzero)]

variable {table : List UInt8}

theorem readSectionName_long {table text : List UInt8} {position : Nat}
    (htext : text = 0x2f :: decimal position) :
    readSectionName table (patch (List.replicate 8 0) 0 text) = stringAt table position := by
  unfold readSectionName
  rw [patch_zeros, htext, List.cons_append, if_pos List.head?_cons, List.tail_cons,
    untilZero_padded _ (zero_notMem_decimal position), decimalValue_decimal]

theorem readSymbolName_long {position : Nat} (h : position < 2 ^ 32) :
    readSymbolName table (patch (List.replicate 8 0) 4 (leBytes 4 position)) =
      stringAt table position := by
  have hlength : (leBytes 4 position).length = 4 := length_leBytes _ _
  have hlow : field (patch (List.replicate 8 0) 4 (leBytes 4 position)) 0 4 = 0 := by
    rw [field, slice_patch_outside (by rw [hlength]; decide) (.inl (by decide))]
    decide
  have hhigh : field (patch (List.replicate 8 0) 4 (leBytes 4 position)) 4 4 = position := by
    have hslice := slice_patch_self (s := List.replicate 8 (0 : UInt8)) (k := 4)
      (t := leBytes 4 position) (by rw [hlength]; decide)
    rw [hlength] at hslice
    rw [field, hslice, leValue_leBytes, Nat.mod_eq_of_lt (by omega)]
  unfold readSymbolName
  rw [if_pos hlow, hhigh]

/-! ## The string table -/

variable {s : Strings} {bytes : List UInt8}

namespace Strings

/-- Every entry is the offset of its name, which ends at a zero byte. -/
structure Inv (s : Strings) : Prop where
  size : 4 ≤ s.bytes.length
  bound : s.bytes.length < 2 ^ 32
  entries : ∀ name position, s.positions.get name = some position →
    4 ≤ position ∧ position ≤ s.bytes.length ∧
      ∃ rest, s.bytes.drop position = asBytes name ++ 0 :: rest

/-- The table begins like the strings, apart from the size. -/
def Within (s : Strings) (table : List UInt8) : Prop := s.bytes.drop 4 <+: table.drop 4

theorem Within.trans {s s' : Strings} (h : s.Within s'.bytes) (h' : s'.Within table) :
    s.Within table := List.IsPrefix.trans h h'

theorem within_finish (s : Strings) : s.Within s.finish := by
  have hlength : (leBytes 4 s.bytes.length).length = 4 := length_leBytes _ _
  have hdrop : s.finish.drop 4 = s.bytes.drop 4 := by
    unfold finish u32At patch
    rw [List.take_zero, List.nil_append, Nat.zero_add, hlength, List.drop_left' hlength]
  unfold Within
  exact hdrop ▸ List.prefix_refl _

theorem length_finish (h : s.Inv) : s.finish.length = s.bytes.length := by
  have hsize := h.size
  exact length_patch (by rw [length_leBytes]; omega)

/-- The size of the table stands in front of it. -/
theorem field_finish (h : s.Inv) : field s.finish 0 4 = s.bytes.length := by
  have hsize := h.size
  have hslice := slice_patch_self (s := s.bytes) (k := 0)
    (t := leBytes 4 s.bytes.length) (by rw [length_leBytes]; omega)
  rw [length_leBytes] at hslice
  unfold field finish u32At
  rw [hslice, leValue_leBytes, Nat.mod_eq_of_lt (by have hbound := h.bound; omega)]

/-- A name that has an offset is found there in every later table. -/
theorem Inv.stringAt (h : s.Inv) {name : String} {position : Nat}
    (hget : s.positions.get name = some position) (hzero : '\x00' ∉ name.toList)
    (hwithin : s.Within table) : stringAt table position = some (asBytes name) := by
  obtain ⟨hfour, hle, rest, hrest⟩ := h.entries name position hget
  obtain ⟨more, hmore⟩ := hwithin
  have hdrop : table.drop position = asBytes name ++ 0 :: (rest ++ more) := by
    have hsplit : position = 4 + (position - 4) := by omega
    rw [hsplit, ← List.drop_drop, ← hmore, List.drop_append, List.drop_drop, ← hsplit, hrest]
    have hlength : position - 4 - (s.bytes.drop 4).length = 0 := by
      rw [List.length_drop]
      omega
    rw [hlength, List.drop_zero, List.append_assoc, List.cons_append]
  unfold Whale.stringAt
  rw [hdrop]
  exact cString_append (zero_notMem_asBytes hzero)

theorem inv_new (limit : Nat) : (new limit).Inv where
  size := Nat.le_of_eq List.length_replicate.symm
  bound := Nat.lt_of_le_of_lt (Nat.le_of_eq List.length_replicate) (by decide)
  entries := fun _ _ h => nomatch h

theorem checkName_ok {name : String} {u : Unit} (h : checkName name = .ok u) :
    name ≠ "" ∧ '\x00' ∉ name.toList := require_ok_iff.mp h

/-- Adding a name keeps every offset and gives the name one. -/
theorem add_spec {s s' : Strings} {name : String} {position : Nat} (hinv : s.Inv)
    (h : s.add name = .ok (position, s')) :
    s'.Inv ∧ s.Within s'.bytes ∧ s'.positions.get name = some position := by
  obtain ⟨-, -, h₁⟩ := bind_ok_iff.mp h
  cases hget : s.positions.get name with
  | some found =>
      rw [hget] at h₁
      cases h₁
      exact ⟨hinv, List.prefix_refl _, hget⟩
  | none =>
      rw [hget] at h₁
      obtain ⟨stop, hstop, h₂⟩ := bind_ok_iff.mp h₁
      obtain ⟨_, hlimit, h₃⟩ := bind_ok_iff.mp h₂
      have hbound := (require_ok_iff.mp hlimit).2
      obtain ⟨rfl, -⟩ := checkedAdd_eq_some.mp (orThrow_ok_iff.mp hstop)
      cases h₃
      have hsize := hinv.size
      refine ⟨⟨?_, ?_, ?_⟩, ?_, AssocMap.get_insert_self _ _ _⟩
      · simp only [List.length_append]
        omega
      · simp only [List.length_append, List.length_singleton]
        omega
      · intro other found hfound
        simp only [List.length_append, List.length_singleton]
        by_cases hname : other = name
        · subst hname
          rw [AssocMap.get_insert_self] at hfound
          cases hfound
          refine ⟨hsize, by omega, [], ?_⟩
          rw [List.append_assoc, List.drop_left]
        · rw [AssocMap.get_insert_ne hname] at hfound
          obtain ⟨hfour, hle, rest, hrest⟩ := hinv.entries other found hfound
          refine ⟨hfour, by omega, rest ++ (asBytes name ++ [0]), ?_⟩
          rw [List.append_assoc, List.drop_append_of_le_length hle, hrest, List.append_assoc,
            List.cons_append]
      · show s.bytes.drop 4 <+: (s.bytes ++ asBytes name ++ [0]).drop 4
        rw [List.append_assoc, List.drop_append_of_le_length hsize]
        exact List.prefix_append _ _

/-- The field of a name is read as the name with every later table. -/
theorem name_spec {s s' : Strings} {name : String} {section' : Bool} (hinv : s.Inv)
    (h : s.name name section' = .ok (bytes, s')) :
    s'.Inv ∧ s.Within s'.bytes ∧ bytes.length = 8 ∧ ∀ table, s'.Within table →
      (if section' then readSectionName table bytes else readSymbolName table bytes) =
        some (asBytes name) := by
  obtain ⟨_, hcheck, h₁⟩ := bind_ok_iff.mp h
  obtain ⟨hempty, hzero⟩ := checkName_ok hcheck
  by_cases hshort : (asBytes name).length ≤ 8 ∧
      ¬ (section' = true ∧ name.toList.head? = some '/')
  · rw [if_pos hshort] at h₁
    cases h₁
    refine ⟨hinv, List.prefix_refl _, ?_, fun table _ => ?_⟩
    · rw [length_patch (by simpa using hshort.1), List.length_replicate]
    · cases section' with
      | false => exact readSymbolName_short table hempty hzero
      | true => exact readSectionName_short table hempty hzero fun hs => hshort.2 ⟨rfl, hs⟩
  · rw [if_neg hshort] at h₁
    obtain ⟨⟨position, t⟩, hadd, h₂⟩ := bind_ok_iff.mp h₁
    obtain ⟨hinv', hwithin, hget⟩ := add_spec hinv hadd
    have hposition : position < 2 ^ 32 := by
      have hle := (hinv'.entries name position hget).2.1
      have hbound := hinv'.bound
      omega
    cases section' with
    | true =>
        obtain ⟨_, hlength, h₃⟩ := bind_ok_iff.mp h₂
        cases h₃
        refine ⟨hinv', hwithin, ?_, fun table htable => ?_⟩
        · rw [length_patch (by simpa using require_ok_iff.mp hlength), List.length_replicate]
        · rw [if_pos rfl, readSectionName_long rfl]
          exact hinv'.stringAt hget hzero htable
    | false =>
        cases h₂
        refine ⟨hinv', hwithin, ?_, fun table htable => ?_⟩
        · rw [length_patch (by rw [length_leBytes]; decide), List.length_replicate]
        · rw [if_neg Bool.false_ne_true, readSymbolName_long hposition]
          exact hinv'.stringAt hget hzero htable

end Strings

/-! # The symbol table of COFF objects

A symbol becomes a record with the auxiliary records it needs, and the reader finds it at the
index the writer gave to relocations (`planSymbols_spec`). -/

/-! ## Records -/

/-- The records of one symbol: the first says how many more there are, and together they are
read as `image`. -/
structure Entry (table bytes : List UInt8) (image : Option ImageSymbol) : Prop where
  length : bytes.length = 18 * (1 + field bytes 17 1)
  symbol : readSymbol table (slice bytes 0 18) (slice bytes 18 (18 * field bytes 17 1)) =
    some image

variable {name : List UInt8}

theorem eight_bytes (h : name.length = 8) : ∃ a b c d e f g i, name = [a, b, c, d, e, f, g, i] := by
  match name, h with
  | [a, b, c, d, e, f, g, i], _ => exact ⟨a, b, c, d, e, f, g, i, rfl⟩

/-- The bytes of a symbol record. -/
def plainRecord (name : List UInt8) (value number type : Nat) (class' aux : UInt8) : List UInt8 :=
  name ++ leBytes 4 value ++ leBytes 2 number ++ leBytes 2 type ++ [class', aux]

/-- The auxiliary record of a function. -/
def functionAux (size : Nat) : List UInt8 :=
  List.replicate 4 0 ++ leBytes 4 size ++ List.replicate 10 0

theorem field_plainRecord (hname : name.length = 8) {value number type : Nat} (class' aux : UInt8)
    (rest : List UInt8) (hvalue : value < 2 ^ 32) (hnumber : number < 2 ^ 16)
    (htype : type < 2 ^ 16) : let r := plainRecord name value number type class' aux
    slice r 0 8 = name ∧ field r 8 4 = value ∧ field r 12 2 = number ∧ field r 14 2 = type ∧
      field r 16 1 = class'.toNat ∧ slice (r ++ rest) 0 18 = r ∧
      field (r ++ rest) 17 1 = aux.toNat := by
  obtain ⟨a, b, c, d, e, f, g, i, rfl⟩ := eight_bytes hname
  refine ⟨rfl, ?_, ?_, ?_, rfl, rfl, rfl⟩
  · exact leValue_leBytes_of_lt (n := 4) hvalue
  · exact leValue_leBytes_of_lt (n := 2) hnumber
  · exact leValue_leBytes_of_lt (n := 2) htype

theorem patches_plain (hname : name.length = 8) (value number type : Nat) (class' aux : UInt8) :
    patch (patch (u16At (u16At (u32At (patch (List.replicate 18 0) 0 name) 8 value) 12 number) 14
      type) 16 [class']) 17 [aux] = plainRecord name value number type class' aux := by
  obtain ⟨a, b, c, d, e, f, g, i, rfl⟩ := eight_bytes hname
  simp [patch, u16At, u32At, plainRecord, leBytes, List.replicate_succ]

theorem patches_aux (hname : name.length = 8) (value number type size : Nat) (class' aux : UInt8) :
    u32At (patch (patch (u16At (u16At (u32At (patch (List.replicate 36 0) 0 name) 8 value) 12
      number) 14 type) 16 [class']) 17 [aux]) 22 size =
        plainRecord name value number type class' aux ++ functionAux size := by
  obtain ⟨a, b, c, d, e, f, g, i, rfl⟩ := eight_bytes hname
  simp [patch, u16At, u32At, plainRecord, functionAux, leBytes, List.replicate_succ]

/-- Whether a symbol needs an auxiliary record. -/
def hasAux (symbol : ObjectSymbol) : Bool := decide (symbol.kind = .function ∧ symbol.size ≠ 0)

theorem record_ok {symbol : ObjectSymbol} (hname : name.length = 8)
    (h : record symbol name = .ok bytes) :
    symbol.binding ≠ .weak ∧ symbol.value.toNat < 2 ^ 32 ∧
      (hasAux symbol = true → symbol.binding = .global ∧ symbol.size.toNat < 2 ^ 32) ∧
      bytes = plainRecord name symbol.value.toNat (symbol.sectionIndex.elim 0 (· + 1))
          (if symbol.kind = .function then 0x20 else 0) (if symbol.binding = .local then 3 else 2)
          (if hasAux symbol then 1 else 0) ++
        if hasAux symbol then functionAux symbol.size.toNat else [] := by
  obtain ⟨_, hbinding, h₁⟩ := bind_ok_iff.mp h
  obtain ⟨_, -, h₂⟩ := bind_ok_iff.mp h₁
  obtain ⟨_, hlocal, h₃⟩ := bind_ok_iff.mp h₂
  obtain ⟨_, hvalue, h₄⟩ := bind_ok_iff.mp h₃
  have hweak : symbol.binding ≠ .weak := fun hw => require_ok_iff.mp hbinding (.inl hw)
  have hglobal := require_ok_iff.mp hlocal
  cases haux : hasAux symbol with
  | false =>
      have hdecide : decide (symbol.kind = .function ∧ symbol.size ≠ 0) = false := haux
      rw [hdecide] at h₄
      simp only [Bool.false_eq_true, if_false] at h₄
      have hbytes := Except.ok.inj h₄
      refine ⟨hweak, require_ok_iff.mp hvalue, by rintro ⟨⟩, ?_⟩
      rw [← hbytes, patches_plain hname]
      simp only [Bool.false_eq_true, if_false, List.append_nil]
  | true =>
      have hdecide : decide (symbol.kind = .function ∧ symbol.size ≠ 0) = true := haux
      rw [hdecide] at h₄ hglobal
      obtain ⟨_, hsize, h₅⟩ := bind_ok_iff.mp h₄
      have hbytes := Except.ok.inj h₅
      have hbound : symbol.binding = .global := by
        by_contra hb
        exact hglobal ⟨rfl, hb⟩
      refine ⟨hweak, require_ok_iff.mp hvalue, fun _ => ⟨hbound, require_ok_iff.mp hsize⟩, ?_⟩
      rw [← hbytes]
      simp only [if_true]
      rw [patches_aux hname]

theorem readNumber_succ (i : Option Nat) : readNumber (i.elim 0 (· + 1)) = i := by
  cases i <;> rfl

theorem readSymbol_fields {symbol : ObjectSymbol} {table r aux : List UInt8} {class' : Nat}
    (hname : readSymbolName table (slice r 0 8) = some (asBytes symbol.name))
    (hvalue : field r 8 4 = symbol.value.toNat)
    (hnumber : field r 12 2 = symbol.sectionIndex.elim 0 (· + 1))
    (htype : field r 14 2 = if symbol.kind = .function then 0x20 else 0)
    (hclass : field r 16 1 = class')
    (hbinding : readClass class' = some (decide (symbol.binding = .global)))
    (haux : class' = 3 → aux = [])
    (hsize : (if aux = [] then none else some (field aux 4 4)) =
      if symbol.kind = .function ∧ symbol.size ≠ 0 then some symbol.size.toNat else none) :
    readSymbol table r aux = some (some (symbolImage symbol)) := by
  have hfunction : decide ((if symbol.kind = .function then 0x20 else 0) = 0x20) =
      decide (symbol.kind = .function) := by
    by_cases hkind : symbol.kind = .function <;> simp [hkind]
  unfold readSymbol
  rw [hclass, if_neg fun h => h.2 (haux h.1), hname, hvalue, hnumber, htype, hbinding, hsize,
    readNumber_succ, hfunction]
  rfl

theorem record_entry {symbol : ObjectSymbol} (hname : name.length = 8)
    (hread : readSymbolName table name = some (asBytes symbol.name))
    (hindex : ∀ i, symbol.sectionIndex = some i → i < 32767) (h : record symbol name = .ok bytes) :
    Entry table bytes (some (symbolImage symbol)) := by
  obtain ⟨hweak, hvalue, haux, rfl⟩ := record_ok hname h
  have hnumber : symbol.sectionIndex.elim 0 (· + 1) < 2 ^ 16 := by
    cases hsection : symbol.sectionIndex with
    | none => decide
    | some i =>
        have hlt := hindex i hsection
        show i + 1 < 2 ^ 16
        omega
  have htype : (if symbol.kind = .function then 0x20 else 0) < 2 ^ 16 := by
    split <;> decide
  have hclass : readClass (if symbol.binding = .local then 3 else 2 : UInt8).toNat =
      some (decide (symbol.binding = .global)) := by
    cases hbinding : symbol.binding with
    | weak => exact absurd hbinding hweak
    | «local» => rfl
    | global => rfl
  -- With an auxiliary record the symbol takes two records, else one.
  cases hhas : hasAux symbol with
  | false =>
      obtain ⟨h₁, h₂, h₃, h₄, h₅, h₆, h₇⟩ := field_plainRecord hname
        (if symbol.binding = .local then 3 else 2) 0 [] hvalue hnumber htype
      rw [List.append_nil] at h₆ h₇
      simp only [Bool.false_eq_true, if_false, List.append_nil]
      have hzero : (0 : UInt8).toNat = 0 := rfl
      constructor
      · rw [h₇, hzero]
        simp [plainRecord, hname]
      · rw [h₆, h₇, hzero, Nat.mul_zero, slice_zero]
        refine readSymbol_fields (by rw [h₁, hread]) h₂ h₃ h₄ h₅ hclass (fun _ => rfl) ?_
        rw [if_pos rfl, if_neg (of_decide_eq_false hhas)]
  | true =>
      obtain ⟨hbinding, hsize⟩ := haux hhas
      obtain ⟨h₁, h₂, h₃, h₄, h₅, h₆, h₇⟩ := field_plainRecord hname
        (if symbol.binding = .local then 3 else 2) 1 (functionAux symbol.size.toNat) hvalue
        hnumber htype
      simp only [if_true]
      have hone : (1 : UInt8).toNat = 1 := rfl
      have hauxLength : (functionAux symbol.size.toNat).length = 18 := by simp [functionAux]
      constructor
      · rw [h₇, hone]
        simp [plainRecord, hname, hauxLength]
      · have hslice := slice_append_right (s := plainRecord name symbol.value.toNat
          (symbol.sectionIndex.elim 0 (· + 1)) (if symbol.kind = .function then 0x20 else 0)
          (if symbol.binding = .local then 3 else 2) 1) (t := functionAux symbol.size.toNat)
          (a := 0) (n := 18)
        have hfirst : (plainRecord name symbol.value.toNat (symbol.sectionIndex.elim 0 (· + 1))
            (if symbol.kind = .function then 0x20 else 0)
            (if symbol.binding = .local then 3 else 2) 1).length = 18 := by
          simp [plainRecord, hname]
        rw [hfirst, ← hauxLength, slice_zero_length, hauxLength] at hslice
        rw [h₆, h₇, hone, hslice]
        have hne : functionAux symbol.size.toNat ≠ [] :=
          List.ne_nil_of_length_pos (by rw [hauxLength]; decide)
        refine readSymbol_fields (by rw [h₁, hread]) h₂ h₃ h₄ h₅ hclass ?_ ?_
        · -- Only external symbols have a size.
          rw [hbinding]
          exact fun hc => absurd hc (by decide)
        · rw [if_neg hne, if_pos (of_decide_eq_true hhas)]
          exact congrArg some (leValue_leBytes_of_lt (n := 4) hsize)

/-! ## Tables -/

/-- The indices of records that lie one after the other. -/
def recordIndices : Nat → List (List UInt8) → List Nat
  | _, [] => []
  | index, r :: records => index :: recordIndices (index + r.length / 18) records

/-- The index behind the records. -/
def recordsEnd : Nat → List (List UInt8) → Nat
  | index, [] => index
  | index, r :: records => recordsEnd (index + r.length / 18) records

theorem recordIndices_append (index : Nat) (records records' : List (List UInt8)) :
    recordIndices index (records ++ records') =
      recordIndices index records ++ recordIndices (recordsEnd index records) records' := by
  induction records generalizing index with
  | nil => rfl
  | cons r records ih =>
      rw [List.cons_append, recordIndices, recordIndices, recordsEnd, ih, List.cons_append]

theorem recordsEnd_append (index : Nat) (records records' : List (List UInt8)) :
    recordsEnd index (records ++ records') = recordsEnd (recordsEnd index records) records' := by
  induction records generalizing index with
  | nil => rfl
  | cons r records ih => exact ih _

theorem le_recordsEnd (index : Nat) (records : List (List UInt8)) :
    index ≤ recordsEnd index records := by
  induction records generalizing index with
  | nil => exact Nat.le_refl _
  | cons r records ih => exact Nat.le_trans (Nat.le_add_right _ _) (ih _)

theorem le_of_mem_recordIndices {index i : Nat} {records : List (List UInt8)}
    (h : i ∈ recordIndices index records) : i ≤ recordsEnd index records := by
  induction records generalizing index with
  | nil => cases h
  | cons r records ih =>
      rcases List.mem_cons.mp h with rfl | h
      · exact le_recordsEnd _ (r :: records)
      · exact ih h

theorem length_recordIndices (index : Nat) (records : List (List UInt8)) :
    (recordIndices index records).length = records.length := by
  induction records generalizing index with
  | nil => rfl
  | cons r records ih => rw [recordIndices, List.length_cons, List.length_cons, ih]

/-- The symbols of the entries, with their indices. -/
def numbered : List Nat → List (Option ImageSymbol) → List (Nat × ImageSymbol)
  | index :: indices, image :: images =>
      (image.toList.map fun s => (index, s)) ++ numbered indices images
  | _, _ => []

/-- Entries one after the other are read one after the other. -/
theorem readSymbols_flatten {records : List (List UInt8)} {images : List (Option ImageSymbol)}
    (h : List.Forall₂ (Entry table) records images) (index : Nat) :
    readSymbols table index records.flatten = some (numbered (recordIndices index records) images)
    := by
  induction h generalizing index with
  | nil =>
      unfold readSymbols
      rfl
  | @cons r image records images hentry hrest ih =>
      have hlength := hentry.length
      have hfield : field (r ++ records.flatten) 17 1 = field r 17 1 := by
        unfold field
        rw [slice_append_left (by omega)]
      have hne : r ++ records.flatten ≠ [] := by
        intro hnil
        rw [(List.append_eq_nil_iff.mp hnil).1] at hlength
        simp at hlength
      have hdrop : (r ++ records.flatten).drop (18 * (1 + field r 17 1)) = records.flatten :=
        List.drop_left' hlength
      have hcount : r.length / 18 = 1 + field r 17 1 := by omega
      have hindices : recordIndices index (r :: records) =
          index :: recordIndices (index + (1 + field r 17 1)) records := by
        rw [recordIndices, hcount]
      rw [List.flatten_cons, hindices]
      unfold readSymbols
      rw [if_neg hne, if_neg (by rw [List.length_append]; omega), hfield,
        slice_append_left (by omega)]
      dsimp only
      rw [slice_append_left (by omega), hentry.symbol, hdrop, Nat.add_assoc, ih]
      rfl

/-! ## The table of an object -/

theorem grow_ok {cursor bytes limit stop : Nat} (h : grow cursor bytes limit = .ok stop) :
    stop = cursor + bytes ∧ stop ≤ limit ∧ stop < 2 ^ 32 := by
  obtain ⟨n, hn, h₁⟩ := bind_ok_iff.mp h
  obtain ⟨_, hbound, h₂⟩ := bind_ok_iff.mp h₁
  cases h₂
  obtain ⟨hadd, hle⟩ := Option.filter_eq_some_iff.mp (orThrow_ok_iff.mp hn)
  obtain ⟨rfl, -⟩ := checkedAdd_eq_some.mp hadd
  exact ⟨rfl, of_decide_eq_true hle, require_ok_iff.mp hbound⟩

theorem number_ok {n m : Nat} (h : number n = .ok m) : m = n ∧ n < 2 ^ 32 := by
  obtain ⟨_, hbound, h₁⟩ := bind_ok_iff.mp h
  cases h₁
  exact ⟨rfl, require_ok_iff.mp hbound⟩

/-- The records are those of the symbols, which have the names, and the index of a name is that
of its record. -/
structure SymbolTable.Inv (first : Nat) (t : SymbolTable) (symbols : List ObjectSymbol) :
    Prop where
  strings : t.strings.Inv
  entries : ∀ table, t.strings.Within table →
    List.Forall₂ (fun bytes s => Entry table bytes (some (symbolImage s))) t.records symbols
  count : t.count = recordsEnd first t.records
  bound : t.count < 2 ^ 32
  indices : ∀ name index, t.indices.get name = some index → ∃ k : Nat,
    (recordIndices first t.records)[k]? = some index ∧
      (symbols.map ObjectSymbol.name)[k]? = some name
  known : ∀ name, (t.indices.get name).isSome = true ↔ name ∈ symbols.map ObjectSymbol.name

namespace SymbolTable

/-- One more record, with the next index. -/
theorem Inv.append {first : Nat} {t : SymbolTable} {symbols : List ObjectSymbol}
    (h : t.Inv first symbols) {symbol : ObjectSymbol}
    (hname : t.strings.name symbol.name false = .ok (name, s))
    (hrecord : record symbol name = .ok bytes)
    (hindex : ∀ i, symbol.sectionIndex = some i → i < 32767)
    (hcount : t.count + bytes.length / 18 < 2 ^ 32) :
    Inv first
      { strings := s, records := t.records ++ [bytes]
        indices := t.indices.insert symbol.name t.count, count := t.count + bytes.length / 18 }
      (symbols ++ [symbol]) := by
  obtain ⟨hstrings, hwithin, hlength, hread⟩ := Strings.name_spec h.strings hname
  have hrecords := (h.entries _ (List.prefix_refl _)).length_eq
  refine ⟨hstrings, fun table htable => ?_, ?_, hcount, fun other index hget => ?_, fun other => ?_⟩
  · refine List.rel_append (h.entries table (hwithin.trans htable)) (.cons ?_ .nil)
    exact record_entry hlength (hread table htable) hindex hrecord
  · show t.count + bytes.length / 18 = recordsEnd first (t.records ++ [bytes])
    rw [recordsEnd_append, ← h.count]
    rfl
  · show ∃ k : Nat, (recordIndices first (t.records ++ [bytes]))[k]? = some index ∧ _
    rw [recordIndices_append, ← h.count, List.map_append]
    -- The new name is bound to the new record; the others keep theirs.
    by_cases hother : other = symbol.name
    · subst hother
      have hself : index = t.count := by
        have hget' := AssocMap.get_insert_self symbol.name t.count t.indices
        exact Option.some.inj (hget.symm.trans hget')
      have hmap : (symbols.map ObjectSymbol.name).length = t.records.length := by
        rw [List.length_map, hrecords]
      refine ⟨t.records.length, ?_, ?_⟩
      · rw [List.getElem?_append_right (by rw [length_recordIndices]), length_recordIndices,
          Nat.sub_self, hself]
        rfl
      · rw [List.getElem?_append_right (by omega), hmap, Nat.sub_self]
        rfl
    · obtain ⟨k, hk, hname'⟩ := h.indices other index
        ((AssocMap.get_insert_ne hother t.count t.indices).symm.trans hget)
      refine ⟨k, ?_, ?_⟩
      · rw [List.getElem?_append_left (List.getElem?_eq_some_iff.mp hk).1, hk]
      · rw [List.getElem?_append_left (List.getElem?_eq_some_iff.mp hname').1, hname']
  · show (AssocMap.get other (AssocMap.insert symbol.name t.count t.indices)).isSome = true ↔ _
    rw [List.map_append, List.mem_append]
    by_cases hother : other = symbol.name
    · subst hother
      rw [AssocMap.get_insert_self]
      exact ⟨fun _ => .inr List.mem_cons_self, fun _ => rfl⟩
    · rw [AssocMap.get_insert_ne hother, h.known other]
      refine ⟨.inl, fun hmem => hmem.resolve_right fun hlast => ?_⟩
      exact hother (List.mem_singleton.mp hlast)

theorem Inv.push {first : Nat} {t t' : SymbolTable} {symbols : List ObjectSymbol}
    (h : t.Inv first symbols) {symbol : ObjectSymbol}
    (hindex : ∀ i, symbol.sectionIndex = some i → i < 32767)
    (hpush : t.push symbol = .ok t') : t'.Inv first (symbols ++ [symbol]) := by
  obtain ⟨⟨name, s⟩, hname, h₁⟩ := bind_ok_iff.mp hpush
  obtain ⟨bytes, hrecord, h₂⟩ := bind_ok_iff.mp h₁
  obtain ⟨count, hcount, h₃⟩ := bind_ok_iff.mp h₂
  obtain ⟨rfl, hbound⟩ := number_ok hcount
  cases h₃
  exact h.append hname hrecord hindex hbound

theorem length_undefined_record {symbol : String} (hname : name.length = 8)
    (h : record (undefinedSymbol symbol) name = .ok bytes) : bytes.length / 18 = 1 := by
  obtain ⟨-, -, -, rfl⟩ := record_ok hname h
  have haux : hasAux (undefinedSymbol symbol) = false := rfl
  rw [haux]
  simp [plainRecord, hname]

/-- A relocation adds its symbol unless it is there. -/
theorem Inv.pushUndefined {first : Nat} {t t' : SymbolTable} {symbols : List ObjectSymbol}
    (h : t.Inv first symbols) {r : ObjectRelocation} (hpush : t.pushUndefined r = .ok t') :
    t'.Inv first (symbols ++
      if r.symbol ∈ symbols.map ObjectSymbol.name then [] else [undefinedSymbol r.symbol]) := by
  unfold SymbolTable.pushUndefined at hpush
  have hknown := h.known r.symbol
  cases hget : t.indices.get r.symbol with
  | some index =>
      rw [hget] at hpush hknown
      cases hpush
      rw [if_pos (hknown.mp rfl), List.append_nil]
      exact h
  | none =>
      rw [hget] at hpush hknown
      obtain ⟨count, hcount, h₁⟩ := bind_ok_iff.mp hpush
      obtain ⟨⟨name, s⟩, hname, h₂⟩ := bind_ok_iff.mp h₁
      obtain ⟨bytes, hrecord, h₃⟩ := bind_ok_iff.mp h₂
      obtain ⟨rfl, hbound⟩ := number_ok hcount
      cases h₃
      have hlength := (Strings.name_spec h.strings hname).2.2.1
      have hone := length_undefined_record hlength hrecord
      rw [if_neg fun hmem => Bool.false_ne_true (hknown.mpr hmem)]
      have happend := @Inv.append _ _ _ _ _ _ h (undefinedSymbol r.symbol) hname hrecord
        (fun _ hi => nomatch hi) (by omega)
      rw [hone] at happend
      exact happend

/-- Every symbol has its record, by induction on the symbols. -/
theorem Inv.foldPush {first : Nat} {rest : List ObjectSymbol} {t t' : SymbolTable}
    {symbols : List ObjectSymbol} (h : t.Inv first symbols)
    (hindex : ∀ s ∈ rest, ∀ i, s.sectionIndex = some i → i < 32767)
    (hfold : rest.foldlM SymbolTable.push t = .ok t') : t'.Inv first (symbols ++ rest) := by
  induction rest generalizing t symbols with
  | nil =>
      cases hfold
      rw [List.append_nil]
      exact h
  | cons s rest ih =>
      obtain ⟨u, hpush, hrest⟩ := foldlM_cons_ok.mp hfold
      have hstep := h.push (hindex s List.mem_cons_self) hpush
      have hall := ih hstep (fun s' hs => hindex s' (List.mem_cons_of_mem _ hs)) hrest
      rwa [List.append_assoc] at hall

/-- Every other name has one record, in the order of first occurrence. -/
theorem Inv.foldUndefined {first : Nat} {rs : List ObjectRelocation} {t t' : SymbolTable}
    {symbols : List ObjectSymbol} (h : t.Inv first symbols)
    (hfold : rs.foldlM SymbolTable.pushUndefined t = .ok t') :
    t'.Inv first (symbols ++ (newNames (symbols.map ObjectSymbol.name)
      (rs.map ObjectRelocation.symbol)).map undefinedSymbol) := by
  induction rs generalizing t symbols with
  | nil =>
      cases hfold
      rw [List.map_nil, newNames_nil, List.map_nil, List.append_nil]
      exact h
  | cons r rs ih =>
      obtain ⟨u, hpush, hrest⟩ := foldlM_cons_ok.mp hfold
      have hstep := h.pushUndefined hpush
      have hall := ih hstep hrest
      rw [List.map_cons]
      by_cases hmem : r.symbol ∈ symbols.map ObjectSymbol.name
      · rw [if_pos hmem, List.append_nil] at hall
        rw [newNames_cons_of_mem hmem]
        exact hall
      · rw [if_neg hmem, List.append_assoc, List.map_append] at hall
        rw [newNames_cons_of_notMem hmem, List.map_cons]
        exact hall

end SymbolTable

/-- The string table of the sections is part of the final one. -/
theorem planSymbols_within {o : ObjectFile} {strings : Strings} {t : SymbolTable}
    (hstrings : strings.Inv) (h : planSymbols o strings = .ok t) :
    strings.Within t.strings.bytes := by
  obtain ⟨count, hcount, h₁⟩ := bind_ok_iff.mp h
  obtain ⟨u, hpush, h₂⟩ := bind_ok_iff.mp h₁
  have hname : ∀ (b : SymbolTable) {name : String} {r : List UInt8 × Strings},
      b.strings.Inv ∧ strings.Within b.strings.bytes → b.strings.name name false = .ok r →
        r.2.Inv ∧ strings.Within r.2.bytes := fun b name r hb hr => by
    obtain ⟨hinv, hwithin, -⟩ := Strings.name_spec hb.1 hr
    exact ⟨hinv, hb.2.trans hwithin⟩
  have hu : u.strings.Inv ∧ strings.Within u.strings.bytes := by
    have hbase : strings.Inv ∧ strings.Within strings.bytes := ⟨hstrings, List.prefix_refl _⟩
    refine foldlM_inv (P := fun b : SymbolTable => b.strings.Inv ∧ strings.Within b.strings.bytes)
      (fun b s b' hb hb' => ?_) hbase hpush
    obtain ⟨r, hr, h₃⟩ := bind_ok_iff.mp hb'
    obtain ⟨bytes, -, h₄⟩ := bind_ok_iff.mp h₃
    obtain ⟨m, -, h₅⟩ := bind_ok_iff.mp h₄
    cases h₅
    exact hname b hb hr
  refine (foldlM_inv
    (P := fun b : SymbolTable => b.strings.Inv ∧ strings.Within b.strings.bytes)
    (fun b r b' hb hb' => ?_) hu h₂).2
  unfold SymbolTable.pushUndefined at hb'
  cases hget : b.indices.get r.symbol with
  | some index =>
      rw [hget] at hb'
      cases hb'
      exact hb
  | none =>
      rw [hget] at hb'
      obtain ⟨m, -, h₃⟩ := bind_ok_iff.mp hb'
      obtain ⟨q, hq, h₄⟩ := bind_ok_iff.mp h₃
      obtain ⟨bytes, -, h₅⟩ := bind_ok_iff.mp h₄
      cases h₅
      exact hname b hb hq

/-- The symbols a writer puts out. -/
def outputSymbols (o : ObjectFile) : List ObjectSymbol :=
  o.symbols ++ (undeclared o).map SymbolTable.undefinedSymbol

theorem map_outputSymbols (o : ObjectFile) :
    (outputSymbols o).map ObjectSymbol.name = outputNames o := by
  unfold outputSymbols outputNames
  rw [List.map_append, List.map_map]
  congr 1
  exact List.map_id' _

theorem planSymbols_spec {o : ObjectFile} {strings : Strings} {t : SymbolTable}
    (hstrings : strings.Inv)
    (hindex : ∀ s ∈ o.symbols, ∀ i, s.sectionIndex = some i → i < 32767)
    (h : planSymbols o strings = .ok t) : t.Inv (o.sections.length * 2) (outputSymbols o) := by
  obtain ⟨count, hcount, h₁⟩ := bind_ok_iff.mp h
  obtain ⟨u, hpush, h₂⟩ := bind_ok_iff.mp h₁
  obtain ⟨rfl, hbound⟩ := number_ok hcount
  have hempty : SymbolTable.Inv (o.sections.length * 2)
      { strings := strings, records := [], indices := [], count := o.sections.length * 2 } [] :=
    { strings := hstrings
      entries := fun _ _ => .nil
      count := rfl
      bound := hbound
      indices := fun _ _ hget => nomatch hget
      known := fun _ => ⟨nofun, fun hmem => nomatch hmem⟩ }
  have hsymbols := hempty.foldPush hindex hpush
  rw [List.nil_append] at hsymbols
  exact hsymbols.foldUndefined h₂

end Whale.Coff
