import Whale.Memory.Refine

set_option autoImplicit false

/-! # Operations that write a range

`uninit`, `set` and `copy` all end alike: charge, replace the fragments of the range, change
the bytes of one allocation. `writeRange_run` runs this end once; each operation then only
shows that the changed allocation holds the written cells. -/

namespace Whale

/-! ## One step -/

/-- How a result of the tracked memory corresponds to the step of the cells: a success is
the abstract step, a trap is its refusal and changes no cell, an exhausted budget changes no
cell, and nothing panics. -/
def Outcome (σ : CellStore) (op : MemoryOp) : EStateM.Result Fault Memory MemoryOutput → Prop
  | .ok out m => ∃ σ', σ.step op = some (out, σ') ∧ Rel m σ'
  | .error (.trap _) m => σ.step op = none ∧ Rel m σ
  | .error (.limit _ _) m => Rel m σ
  | .error .panic _ => False

theorem update_update (m : Memory) (id : Nat) (f g : Allocation → Allocation) :
    (m.update id f).update id g = m.update id (g ∘ f) := by
  simp only [Memory.update, List.modify_modify_eq]

/-- An allocation whose bytes, initialization and fragments may differ. -/
structure SameHeader (a a' : Allocation) : Prop where
  kind : a'.kind = a.kind
  address : a'.address = a.address
  generation : a'.generation = a.generation
  alive : a'.alive = a.alive
  read : a'.read = a.read
  write : a'.write = a.write

variable {a : Allocation} {start n : Nat}

theorem BlockRel.written {a a' : Allocation} {b : Block} (h : BlockRel a b)
    (hsame : SameHeader a a') (hunique : a'.fragments.UniqueKeys) {f : Nat → Cell}
    (hbody : Body a' (b.write start n f)) : BlockRel a' (b.write start n f) where
  kind := hsame.kind.trans h.kind
  base := hsame.address.trans h.base
  generation := hsame.generation.trans h.generation
  live := hsame.alive.trans h.live
  read := hsame.read.trans h.read
  write := hsame.write.trans h.write
  unique := hunique
  body _ := hbody

variable {m : Memory} {σ : CellStore}

/-- The common end of the operations that write a range: charge, replace the fragments, and
change the bytes of the allocation. `k` is the last part. -/
theorem writeRange_run (h : Rel m σ) {id : Nat} {b : Block} (ha : m.allocations[id]? = some a)
    (hb : σ.blocks[id]? = some b) (hrel : BlockRel a b) (work : Nat) {new : List (Nat × Fragment)}
    (hnew : RangeFragments start (start + n) new) (g : Allocation → Allocation) {f : Nat → Cell}
    (k : MemoryM Unit)
    (hk : ∀ m' : Memory, m'.allocations[id]? = some (a.replaced start (start + n) new) →
      k m' = .ok () (m'.update id g)) (hsame : SameHeader a (g (a.replaced start (start + n) new)))
    (hfrag : (g (a.replaced start (start + n) new)).fragments =
      (a.replaced start (start + n) new).fragments)
    (hbody : Body (g (a.replaced start (start + n) new)) (b.write start n f)) :
    (∃ m', (do Memory.charge work; Memory.replaceFragments id start (start + n) new; k) m =
        .ok () m' ∧ Rel m' (σ.update id fun b => b.write start n f)) ∨
      ∃ r l m', (do Memory.charge work; Memory.replaceFragments id start (start + n) new; k) m =
        .error (.limit r l) m' ∧ Rel m' σ := by
  rcases charge_run m work with ⟨w, hw⟩ | ⟨l, hl⟩
  · rw [bind_run_ok hw]
    have hcharged := h.charged w
    rcases replaceFragments_run { m with work := w } ha hcharged.fragments hnew with
      ⟨w', count, hcount, hrun⟩ | ⟨r, l, w', hrun⟩
    · left
      rw [bind_run_ok hrun, hk _ (by simp [Memory.update, ha])]
      refine ⟨_, rfl, ?_⟩
      have hfinal := (hcharged.charged w').update ha hb
        (g ∘ (·.replaced start (start + n) new)) (fun b => b.write start n f)
        (hrel.written hsame (hfrag ▸ unique_replaced start (start + n) new hrel.unique) hbody)
        (by simpa only [Function.comp_apply, hfrag] using hcount)
      rw [← update_update] at hfinal
      exact hfinal
    · right
      exact ⟨r, l, _, bind_run_error hrun _, hcharged.charged w'⟩
  · exact Or.inr ⟨_, l, m, bind_run_error hl _, h⟩

theorem getElem?_fill {α : Type} {xs : List α} {x : α} (h : start + n ≤ xs.length) (i : Nat) :
    (patch xs start (List.replicate n x))[i]? =
      if start ≤ i ∧ i < start + n then some x else xs[i]? := by
  rw [getElem?_patch (by rw [List.length_replicate]; exact h), List.length_replicate]
  split
  · rw [List.getElem?_replicate, if_pos (by omega)]
  · rfl

theorem Allocation.cell_eq {i : Nat} {flag byte : UInt8} (hflag : a.initialized[i]? = some flag)
    (hbyte : a.bytes[i]? = some byte) :
    a.cell i = if flag = 0 then none else some ⟨byte, a.fragments.get i⟩ := by
  rw [Allocation.cell, hflag, hbyte]

/-- The range of an allocation filled with a flag, and perhaps with a byte. -/
theorem Body.filled {b : Block} (h : Body a b) (hrange : start + n ≤ b.size)
    (g : Allocation → Allocation) (flag : UInt8) (byte : Option UInt8)
    (hflags : (g (a.replaced start (start + n) [])).initialized =
      patch a.initialized start (List.replicate n flag))
    (hbytes : (g (a.replaced start (start + n) [])).bytes =
      match byte with
      | none => a.bytes
      | some byte => patch a.bytes start (List.replicate n byte))
    (hfrag : (g (a.replaced start (start + n) [])).fragments =
      (a.replaced start (start + n) []).fragments) (hflag : flag = 0 ∨ byte ≠ none) :
    Body (g (a.replaced start (start + n) []))
      (b.write start n fun _ => if flag = 0 then none else byte.map fun byte => ⟨byte, none⟩) := by
  have hnil := rangeFragments_nil start (start + n)
  have hlen₁ : start + n ≤ a.bytes.length := by rw [h.bytes]; exact hrange
  have hlen₂ : start + n ≤ a.initialized.length := by rw [h.initialized]; exact hrange
  have hget : ∀ i, (g (a.replaced start (start + n) [])).bytes[i]? =
      if start ≤ i ∧ i < start + n then byte.or a.bytes[i]? else a.bytes[i]? := by
    intro i
    rw [hbytes]
    cases byte with
    | none => simp
    | some byte => rw [getElem?_fill hlen₁, Option.some_or]
  -- Outside the range nothing changes; inside every cell is the same.
  refine h.write hrange ?_ ?_ ?_ ?_ ?_
  · rw [hbytes]
    cases byte with
    | none => rfl
    | some byte => exact length_patch (by rw [List.length_replicate]; exact hlen₁)
  · rw [hflags]
    exact length_patch (by rw [List.length_replicate]; exact hlen₂)
  · intro i hi
    refine ⟨?_, ?_, ?_⟩
    · rw [hget, if_neg (by omega)]
    · rw [hflags, getElem?_fill hlen₂, if_neg (by omega)]
    · rw [hfrag, get_replaced hnil, if_neg (by omega)]
  · intro j hj
    have hnone : (g (a.replaced start (start + n) [])).fragments.get (start + j) = none := by
      rw [hfrag, get_replaced hnil, if_pos (by omega), AssocMap.get_nil]
    have hj' : start + j < a.bytes.length := by omega
    have hin : start ≤ start + j ∧ start + j < start + n := by omega
    have hf : (g (a.replaced start (start + n) [])).initialized[start + j]? = some flag := by
      rw [hflags, getElem?_fill hlen₂, if_pos hin]
    have hb : (g (a.replaced start (start + n) [])).bytes[start + j]? =
        some (byte.getD a.bytes[start + j]) := by
      rw [hget, if_pos hin, List.getElem?_eq_getElem hj']
      cases byte <;> rfl
    rw [Allocation.cell_eq hf hb, hnone]
    rcases hflag with rfl | hbyte
    · simp
    · cases byte with
      | none => exact absurd rfl hbyte
      | some byte => by_cases h0 : flag = 0 <;> simp [h0]
  · intro j _ content f hc ht
    split at hc
    · cases hc
    · cases byte with
      | none => cases hc
      | some byte =>
          cases hc
          cases ht

theorem uninit_refines (h : Rel m σ) (p : Pointer) (size : Nat) {align : Nat} (halign : 0 < align) :
    Outcome σ (.uninit p size align) ((MemoryOp.uninit p size align).run m) := by
  simp only [MemoryOp.run, Memory.uninit]
  rcases access_spec h p size halign true with ⟨cap, b, hgrant, hacc⟩ | ⟨hgrant, t, hacc⟩
  · have hg := CellStore.grant_eq_some.mp hgrant
    obtain ⟨a, ha, hrel⟩ := h.allocation hg.block
    have hrange : cap.offset + size ≤ b.size := le_trans hg.range hg.upper
    rw [bind_run, bind_run, look_run, hacc]
    dsimp only
    have hbody := (hrel.body hg.live).filled hrange
      (·.fillInitialized cap.offset (cap.offset + size) 0) 0 none
      (by simp only [Allocation.fillInitialized, Nat.add_sub_cancel_left]; rfl) rfl rfl (Or.inl rfl)
    rcases writeRange_run h ha hg.block hrel (cap.offset + size - cap.offset)
      (rangeFragments_nil _ _) (·.fillInitialized cap.offset (cap.offset + size) 0)
      (modify (·.update cap.allocation (·.fillInitialized cap.offset (cap.offset + size) 0)))
      (fun m' _ => modify_run _ m') ⟨rfl, rfl, rfl, rfl, rfl, rfl⟩ rfl hbody with
      ⟨m', hrun, hrel'⟩ | ⟨r, l, m', hrun, hrel'⟩
    · rw [hrun]
      exact ⟨_, by simp only [CellStore.step, hgrant]; rfl, hrel'⟩
    · rw [hrun]
      exact hrel'
  · rw [bind_run, bind_run, look_run, hacc]
    exact ⟨by simp only [CellStore.step, hgrant], h⟩

theorem set_refines (h : Rel m σ) (p : Pointer) (byte : UInt8) (size : Nat) {align : Nat}
    (halign : 0 < align) (hwork : size * 2 < wordBound) :
    Outcome σ (.set p byte size align) ((MemoryOp.set p byte size align).run m) := by
  simp only [MemoryOp.run, Memory.setBytes]
  -- Nothing is checked for a size of zero.
  by_cases hsize : size = 0
  · rw [if_pos hsize]
    exact ⟨σ, by simp only [CellStore.step, hsize, if_true], h⟩
  rw [if_neg hsize]
  rcases access_spec h p size halign true with ⟨cap, b, hgrant, hacc⟩ | ⟨hgrant, t, hacc⟩
  · have hg := CellStore.grant_eq_some.mp hgrant
    obtain ⟨a, ha, hrel⟩ := h.allocation hg.block
    have hrange : cap.offset + size ≤ b.size := le_trans hg.range hg.upper
    have hmul : checkedMul size 2 = some (size * 2) := checkedMul_eq_some.mpr ⟨rfl, hwork⟩
    rw [bind_run, bind_run, look_run, hacc]
    dsimp only
    rw [bind_run, orThrow_run, hmul]
    have hbody := (hrel.body hg.live).filled hrange
      ((·.fillInitialized cap.offset (cap.offset + size) 1) ∘
        (·.fillBytes cap.offset (cap.offset + size) byte)) 1 (some byte)
      (by simp only [Function.comp_apply, Allocation.fillInitialized, Nat.add_sub_cancel_left]; rfl)
      (by simp only [Function.comp_apply, Allocation.fillInitialized, Allocation.fillBytes,
            Nat.add_sub_cancel_left]; rfl)
      rfl (Or.inr (by simp))
    rcases writeRange_run h ha hg.block hrel (size * 2) (rangeFragments_nil _ _)
      ((·.fillInitialized cap.offset (cap.offset + size) 1) ∘
        (·.fillBytes cap.offset (cap.offset + size) byte))
      (do
        modify (·.update cap.allocation (·.fillBytes cap.offset (cap.offset + size) byte))
        modify (·.update cap.allocation (·.fillInitialized cap.offset (cap.offset + size) 1)))
      (fun m' _ => by
        rw [bind_run_ok (modify_run _ m'), modify_run, update_update])
      ⟨rfl, rfl, rfl, rfl, rfl, rfl⟩ rfl hbody with
      ⟨m', hrun, hrel'⟩ | ⟨r, l, m', hrun, hrel'⟩
    · dsimp only
      rw [hrun]
      exact ⟨_, by simp only [CellStore.step, hsize, if_false, hgrant]; rfl, hrel'⟩
    · dsimp only
      rw [hrun]
      exact hrel'
  · rw [bind_run, bind_run, look_run, hacc]
    exact ⟨by simp only [CellStore.step, hsize, if_false, hgrant], h⟩

/-! ### Copies -/

theorem unique_shifted (h : a.fragments.UniqueKeys) (start stop target : Nat) :
    AssocMap.UniqueKeys (a.shifted start stop target) := by
  have hfilter := AssocMap.uniqueKeys_filter (fun e => decide (start ≤ e.1 ∧ e.1 < stop)) h
  unfold AssocMap.UniqueKeys Allocation.shifted
  rw [List.map_map]
  refine List.Nodup.map_on ?_ (List.Nodup.of_map Prod.fst hfilter)
  intro x hx y hy hxy
  have hx' := (List.mem_filter.mp hx).2
  have hy' := (List.mem_filter.mp hy).2
  simp only [decide_eq_true_eq] at hx' hy'
  simp only [Function.comp_apply] at hxy
  exact List.inj_on_of_nodup_map hfilter hx hy (by omega)

theorem rangeFragments_shifted (h : a.fragments.UniqueKeys) (start n target : Nat) :
    RangeFragments target (target + n) (a.shifted start (start + n) target) where
  unique := unique_shifted h start (start + n) target
  range := by
    intro e he
    obtain ⟨x, hx, rfl⟩ := List.mem_map.mp he
    have hx' := (List.mem_filter.mp hx).2
    simp only [decide_eq_true_eq] at hx'
    simp only
    omega

theorem get_shifted (h : a.fragments.UniqueKeys) {start n target j : Nat} (hj : j < n) :
    AssocMap.get (target + j) (a.shifted start (start + n) target) =
      a.fragments.get (start + j) := by
  cases hg : a.fragments.get (start + j) with
  | some f =>
      refine AssocMap.get_of_mem (unique_shifted h _ _ _)
        (List.mem_map.mpr ⟨(start + j, f), ?_, ?_⟩)
      · refine List.mem_filter.mpr ⟨AssocMap.mem_of_get hg, ?_⟩
        simp only [decide_eq_true_eq]
        omega
      · simp
  | none =>
      rw [AssocMap.get_eq_none_iff] at hg ⊢
      intro hmem
      obtain ⟨e, he, hkey⟩ := List.mem_map.mp hmem
      obtain ⟨x, hx, rfl⟩ := List.mem_map.mp he
      have hx' := List.mem_filter.mp hx
      simp only [decide_eq_true_eq] at hx' hkey
      exact hg (List.mem_map.mpr ⟨x, hx'.1, by omega⟩)

/-- Overwriting a range by the bytes, flags and fragments of another range. -/
theorem Body.overwritten {a src : Allocation} {b from' : Block} (h : Body a b)
    (hs : Body src from') (hunique : src.fragments.UniqueKeys) {start n origin : Nat}
    (hrange : start + n ≤ b.size) (horigin : origin + n ≤ from'.size) :
    Body ((a.replaced start (start + n) (src.shifted origin (origin + n) start)).overwrite start
        (slice src.bytes origin n) (slice src.initialized origin n))
      (b.write start n fun j => from'.cells (origin + j)) := by
  have hnew := rangeFragments_shifted hunique origin n start
  have hlen₁ : (slice src.bytes origin n).length = n :=
    length_slice (by rw [hs.bytes]; exact horigin)
  have hlen₂ : (slice src.initialized origin n).length = n :=
    length_slice (by rw [hs.initialized]; exact horigin)
  have hr₁ : start + (slice src.bytes origin n).length ≤ a.bytes.length := by
    rw [hlen₁, h.bytes]; exact hrange
  have hr₂ : start + (slice src.initialized origin n).length ≤ a.initialized.length := by
    rw [hlen₂, h.initialized]; exact hrange
  refine h.write hrange (length_patch hr₁) (length_patch hr₂) ?_ ?_ ?_
  · intro i hi
    refine ⟨getElem?_patch_outside hr₁ (by omega), getElem?_patch_outside hr₂ (by omega), ?_⟩
    show ((a.replaced _ _ _).fragments).get i = _
    rw [get_replaced hnew, if_neg (by omega)]
  · intro j hj
    have hfrag : ((a.replaced start (start + n)
        (src.shifted origin (origin + n) start)).fragments).get (start + j) =
        src.fragments.get (origin + j) := by
      rw [get_replaced hnew, if_pos (by omega), get_shifted hunique hj]
    constructor
    · rw [hs.cells (origin + j) (by omega)]
      simp only [Allocation.cell, Allocation.overwrite]
      rw [hfrag]
      rw [show (a.replaced start (start + n) (src.shifted origin (origin + n) start)).initialized =
        a.initialized from rfl]
      rw [show (a.replaced start (start + n) (src.shifted origin (origin + n) start)).bytes =
        a.bytes from rfl]
      rw [getElem?_patch_inside hr₁ (by omega), getElem?_patch_inside hr₂ (by omega),
        getElem?_slice, getElem?_slice, if_pos hj, if_pos hj]
    · show ((a.replaced _ _ _).fragments).get (start + j) = _
      rw [hfrag, hs.get_eq_tag (by omega)]
      rfl
  · intro j _ content f hc ht
    exact hs.sound (origin + j) content f hc ht

theorem copy_refines (h : Rel m σ) (dst src : Pointer) (size : Nat) {align : Nat}
    (halign : 0 < align)
    (hwork : ∀ cap a, src.capability = some cap → m.allocations[cap.allocation]? = some a →
      size * 4 + m.capacity a.history < wordBound) :
    Outcome σ (.copy dst src size align) ((MemoryOp.copy dst src size align).run m) := by
  simp only [MemoryOp.run, Memory.copy]
  by_cases hsize : size = 0
  · rw [if_pos hsize]
    exact ⟨σ, by simp only [CellStore.step, hsize, if_true], h⟩
  rw [if_neg hsize]
  rcases access_spec h src size halign false with ⟨s, bs, hsg, hacc⟩ | ⟨hsg, t, hacc⟩
  swap
  · rw [bind_run, bind_run, look_run, hacc]
    exact ⟨by simp only [CellStore.step, hsize, if_false, hsg], h⟩
  rw [bind_run, bind_run, look_run, hacc]
  dsimp only
  rcases access_spec h dst size halign true with ⟨d, bd, hdg, hacc⟩ | ⟨hdg, t, hacc⟩
  swap
  · rw [bind_run, look_run, hacc]
    exact ⟨by simp only [CellStore.step, hsize, if_false, hsg, hdg], h⟩
  rw [bind_run, look_run, hacc]
  dsimp only
  rw [bind_run, require_run]
  -- Overlapping ranges of one allocation trap before anything is charged.
  by_cases hover : CellStore.Overlap d s size
  · rw [if_neg (fun hn => hn hover)]
    exact ⟨by simp only [CellStore.step, hsize, if_false, hsg, hdg, hover, if_true], h⟩
  have hapart : ¬ (s.allocation = d.allocation ∧ s.offset < d.offset + size ∧
      d.offset < s.offset + size) := hover
  rw [if_pos hapart]
  have hs := CellStore.grant_eq_some.mp hsg
  have hd := CellStore.grant_eq_some.mp hdg
  obtain ⟨as, has, hrels⟩ := h.allocation hs.block
  obtain ⟨ad, had, hreld⟩ := h.allocation hd.block
  have hlook : Memory.look (Memory.allocation · s.allocation) m = .ok as m := by
    simp only [look_run, Memory.allocation, has, orThrow_some]
  have hcopy : Memory.copyWork size (m.capacity as.history) =
      some (size * 4 + m.capacity as.history) := by
    have hlt := hwork s as hs.capability has
    have h4 : checkedMul size 4 = some (size * 4) := checkedMul_eq_some.mpr ⟨rfl, by omega⟩
    simp only [Memory.copyWork, h4, Option.bind_eq_bind, Option.bind_some]
    exact checkedAdd_eq_some.mpr ⟨rfl, hlt⟩
  dsimp only
  rw [bind_run_ok (get_run m), bind_run_ok hlook, bind_run, orThrow_run, hcopy]
  dsimp only
  rw [Nat.add_sub_cancel_left]
  have hbody := (hreld.body hd.live).overwritten (hrels.body hs.live) hrels.unique
    (le_trans hd.range hd.upper) (le_trans hs.range hs.upper)
  rcases writeRange_run h had hd.block hreld (size * 4 + m.capacity as.history)
    (rangeFragments_shifted hrels.unique s.offset size d.offset)
    (·.overwrite d.offset (slice as.bytes s.offset size) (slice as.initialized s.offset size))
    (modify (·.update d.allocation (·.overwrite d.offset (slice as.bytes s.offset size)
      (slice as.initialized s.offset size))))
    (fun m' _ => modify_run _ m') ⟨rfl, rfl, rfl, rfl, rfl, rfl⟩ rfl hbody with
    ⟨m', hrun, hrel'⟩ | ⟨r, l, m', hrun, hrel'⟩
  · rw [hrun]
    exact ⟨_, by simp only [CellStore.step, hsize, if_false, hsg, hdg, hover], hrel'⟩
  · rw [hrun]
    exact hrel'

end Whale
