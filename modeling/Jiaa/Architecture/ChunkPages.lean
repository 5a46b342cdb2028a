/-
  Jiaa.Architecture.ChunkPages — cutting a chunk into the pages of one step
  (`page_chunks` of `(arena, tr_chunk)` in `ArchMMUSpec::virt_to_phys_iter`).

  The iterator counts pages from its own cursor, the chunk cuts from its least address.
  The two agree on the first page, and afterwards only while no byte lies within a page
  size of the least byte of the page before it: `NoStraddle`.

  - `pageChunks_pages`: under `NoStraddle` the chunks are the pages of the chunk that was
    cut, each with exactly its bytes.
-/

import Jiaa.Architecture.TranslateData

namespace Jiaa

/-- Of the pages of size `s` that hold addresses of `p`, none but the first holds one
    that the page after it answers within `s`: a page with an earlier page before it has
    an address a page size or more before each address of the next page. -/
def NoStraddle (s : Nat) (p : Nat → Prop) : Prop :=
  ∀ z x y, p z → p x → p y → z / s < x / s → y / s = x / s + 1 → ∃ x', p x' ∧ x' / s = x / s ∧ x' + s ≤ y

namespace TranslationChunk

variable {T β : Type*} [SplitAtIndex T] [lawful : LawfulSplitAtIndex T β]

def HasAddr (c : TranslationChunk T) (v : Nat) : Prop := ∃ y ∈ bytesOf c.vec, y.1 = v

/-- `gs` are the pages of `c`. -/
structure ArePages (s : Nat) (c : TranslationChunk T) (gs : List (TranslationChunk T)) : Prop where
  ok : ∀ g ∈ gs, g.Ok ∧ g.ptAddr = c.ptAddr
  page : ∀ g ∈ gs, ∀ y ∈ bytesOf g.vec, y.1 / s = g.minAddr / s
  flat : (gs.flatMap fun g => bytesOf g.vec).Perm (bytesOf c.vec)
  apart : gs.Pairwise fun g h => ∀ y ∈ bytesOf g.vec, ∀ z ∈ bytesOf h.vec, y.1 / s ≠ z.1 / s
  nonempty : c.vec ≠ [] → ∀ g ∈ gs, g.vec ≠ []
  inside : ∀ g ∈ gs, ∀ x ∈ g.vec, ∃ d ∈ c.vec, CutOf (fun v => v / s = x.addr / s) x d

/-- The next cut takes the least page, and no later cut straddles. -/
structure Cuts (s cur : Nat) (c : TranslationChunk T) : Prop where
  first : ∀ y ∈ bytesOf c.vec, y.1 < c.minAddr + (s - 1 - cur % s) + 1 ↔ y.1 / s = c.minAddr / s
  rest : ∀ x ∈ bytesOf c.vec, ∀ y ∈ bytesOf c.vec, x.1 / s ≠ c.minAddr / s → y.1 / s = x.1 / s + 1 →
    ∃ x' ∈ bytesOf c.vec, x'.1 / s = x.1 / s ∧ x'.1 + s ≤ y.1

/-- Inside `s` past the least address there is only its own page, when no page holds an
    address that close to one of the page before it. -/
theorem cuts_of_spaced {s cur : Nat} (hs : 0 < s) (hcur : cur % s = 0) {c : TranslationChunk T} (hc : c.Ok)
    (hne : c.vec ≠ [])
    (hsp : ∀ x ∈ bytesOf c.vec, ∀ y ∈ bytesOf c.vec, y.1 / s = x.1 / s + 1 →
      ∃ x' ∈ bytesOf c.vec, x'.1 / s = x.1 / s ∧ x'.1 + s ≤ y.1) : Cuts s cur c := by
  refine ⟨fun y hy => ?_, fun x hx y hy _ he => hsp x hx y hy he⟩
  rw [hcur, show c.minAddr + (s - 1 - 0) + 1 = c.minAddr + s by omega]
  have hle := (hc.mem_bounds hy).1
  constructor
  · intro hlt
    have h1 : c.minAddr / s ≤ y.1 / s := Nat.div_le_div_right hle
    have h2 : y.1 / s ≤ (c.minAddr + s) / s := Nat.div_le_div_right (by omega)
    rw [Nat.add_div_right _ hs] at h2
    by_contra hne'
    obtain ⟨m, hm, he⟩ := hc.exists_min hne
    obtain ⟨x', hx', -, hsx⟩ := hsp m hm y hy (by rw [he]; omega)
    have := (hc.mem_bounds hx').1
    omega
  · intro he
    exact Lib.Bits.lt_add_of_div_eq hs he.symm

theorem first_of_noStraddle {s : Nat} (hs : 0 < s) {c : TranslationChunk T} (hc : c.Ok) (hne : c.vec ≠ [])
    (hn : NoStraddle s c.HasAddr) : Cuts s c.minAddr c := by
  refine ⟨fun y hy => ?_, fun x hx y hy hx0 he => ?_⟩
  · have hle := (hc.mem_bounds hy).1
    have hr := Nat.mod_lt c.minAddr hs
    have hd := Nat.div_add_mod c.minAddr s
    constructor
    · intro hlt
      refine Nat.le_antisymm (Nat.lt_succ_iff.mp ?_) (Nat.div_le_div_right hle)
      rw [Nat.div_lt_iff_lt_mul hs, Nat.succ_mul, Nat.mul_comm]
      omega
    · intro he
      have hd' := Nat.div_add_mod y.1 s
      have hr' := Nat.mod_lt y.1 hs
      rw [he] at hd'
      omega
  · obtain ⟨m, hm, hme⟩ := hc.exists_min hne
    have hle := Nat.div_le_div_right (c := s) (hc.mem_bounds hx).1
    obtain ⟨x', ⟨w, hw, rfl⟩, h1, h2⟩ := hn m.1 x.1 y.1 ⟨m, hm, rfl⟩ ⟨x, hx, rfl⟩ ⟨y, hy, rfl⟩ (by rw [hme]; omega) he
    exact ⟨w, hw, h1, h2⟩

omit lawful in
/-- An empty chunk is not cut. -/
theorem splitAtInclusive_nil {c : TranslationChunk T} (hc : c.vec = []) (idx : Nat) :
    ∃ l, c.splitAtInclusive idx = (l, none) ∧ l.vec = [] ∧ l.ptAddr = c.ptAddr := by
  unfold splitAtInclusive
  simp only [hc, List.length_nil, Lib.RevLoop.retainRev, List.isEmpty_nil, if_true]
  split
  · exact ⟨c, rfl, hc, rfl⟩
  · exact ⟨_, rfl, rfl, rfl⟩

theorem next_cut (s cur : Nat) {c l : TranslationChunk T} {r : Option (TranslationChunk T)}
    (h : c.splitAtInclusive (PageChunkIterator.endLen cur s 0) = (l, r)) :
    PageChunkIterator.next ⟨some c, cur, s, fun _ _ _ => true, 0⟩ =
      some ((cur, l), ⟨r, Address.add cur (Address.add (PageChunkIterator.endLen cur s 0) 1), s, fun _ _ _ => true, 0⟩) := by
  have hs1 : splitInclusiveAt c (PageChunkIterator.endLen cur s 0) = (l, r) := h
  rw [next_of_check _ cur s (fun _ _ => rfl), hs1]

/-- A chunk without pieces is its only page. -/
theorem pageChunks_nil {c : TranslationChunk T} (hc : c.vec = []) (s : Nat) :
    ∃ l, (pageChunks c c.minAddr s).map (·.2) = [l] ∧ l.Ok ∧ l.vec = [] ∧ l.ptAddr = c.ptAddr := by
  obtain ⟨l, hl, hlv, hlp⟩ := splitAtInclusive_nil hc (PageChunkIterator.endLen c.minAddr s 0)
  refine ⟨l, ?_, ⟨by simp [hlv], by simp [hlv], fun h => absurd hlv h⟩, hlv, hlp⟩
  rw [pageChunks, pageChunksBy, collect_cons _ (next_cut s c.minAddr hl), collect_none _ rfl, List.map_singleton]

/-- The iterator, the cursor anywhere, cuts the chunk into its pages. -/
theorem collect_pages {s : Nat} (hs : 0 < s) (hs' : s < 2 ^ 64) (hd : s ∣ 2 ^ 64) :
    ∀ (n : Nat) (c : TranslationChunk T) (cur : Nat), c.Ok → c.vec ≠ [] → cur < 2 ^ 64 → Cuts s cur c →
    SplitAtIndex.length c < n →
    ArePages s c ((PageChunkIterator.collect n ⟨some c, cur, s, fun _ _ _ => true, 0⟩).map (·.2)) := by
  intro n
  induction n with
  | zero => intro c cur _ _ _ _ h; omega
  | succ n ih =>
    intro c cur hc hne hcur hcut hn
    have hend := endLen_zero hcur hs hs' hd
    obtain ⟨l, r, hsplit, hl, hlp, hlne, hlin, hlb, hr⟩ := splitAtInclusive_spec hc hne (s - 1 - cur % s)
    have hnext := next_cut s cur (hend.symm ▸ hsplit)
    rw [hend] at hnext
    rw [collect_cons n hnext, List.map_cons]
    have hpage : ∀ y ∈ bytesOf l.vec, y.1 / s = l.minAddr / s := by
      obtain ⟨m, hm, hme⟩ := hl.exists_min hlne
      have key : ∀ y ∈ bytesOf l.vec, y.1 / s = c.minAddr / s := by
        intro y hy
        obtain ⟨h1, h2⟩ := List.mem_filter.mp (hlb.subset hy)
        exact (hcut.first y h1).mp (by simpa using h2)
      intro y hy
      rw [key y hy, ← hme, key m hm]
    -- an address of a piece of `c` is before the cut when its page is the first
    have hfirst : ∀ d ∈ c.vec, ∀ v, d.addr ≤ v → v < d.addr + SplitAtIndex.length d →
        (v < c.minAddr + (s - 1 - cur % s) + 1 ↔ v / s = c.minAddr / s) := by
      intro d hd v h1 h2
      obtain ⟨y, hy, rfl⟩ := exists_mem_piece hd (hc.pieces d hd) h1 h2
      exact hcut.first y hy
    have hcutl : ∀ x ∈ l.vec, ∃ d ∈ c.vec, CutOf (fun v => v / s = x.addr / s) x d := by
      intro x hx
      obtain ⟨d, hd, h1⟩ := hlin x hx
      have hp := hl.pieces x hx
      obtain ⟨y, hy, hyx⟩ := exists_mem_piece hx hp (Nat.le_refl _) (by have := hp.1; omega)
      obtain ⟨h2, h3⟩ := List.mem_filter.mp (hlb.subset hy)
      have hxp := (hcut.first y h2).mp (by simpa using h3)
      exact ⟨d, hd, h1.mono fun v h4 h5 h6 => (hfirst d hd v h4 h5).mpr (by rw [h6, ← hyx, hxp])⟩
    rcases hr with ⟨rfl, hall⟩ | ⟨c', rfl, hc', hcp, hcne, hcin, hcb⟩
    · rw [collect_none n rfl]
      refine ⟨by simpa using ⟨hl, hlp⟩, by simpa using hpage, ?_, by simp, by simpa using fun _ => hlne,
        by simpa using hcutl⟩
      rw [List.filter_eq_self.mpr (by simpa using hall)] at hlb
      simpa using hlb
    · have hmem : ∀ y ∈ bytesOf c'.vec, y ∈ bytesOf c.vec ∧ y.1 / s ≠ c.minAddr / s := by
        intro y hy
        obtain ⟨h1, h2⟩ := List.mem_filter.mp (hcb.subset hy)
        refine ⟨h1, fun e => ?_⟩
        have h3 := (hcut.first y h1).mpr e
        rw [decide_eq_true h3] at h2
        cases h2
      have hmem' : ∀ y ∈ bytesOf c.vec, y.1 / s ≠ c.minAddr / s → y ∈ bytesOf c'.vec := by
        intro y hy hy'
        refine hcb.symm.subset (List.mem_filter.mpr ⟨hy, ?_⟩)
        have := mt (hcut.first y hy).mp hy'
        simpa using this
      have hcur' : Address.add cur (Address.add (s - 1 - cur % s) 1) % s = 0 := by
        have hr := Nat.mod_lt cur hs
        have e : (cur + (s - cur % s)) % s = 0 := by
          have := Nat.div_add_mod cur s
          rw [show cur + (s - cur % s) = s * (cur / s + 1) by rw [Nat.mul_add]; omega]
          exact Nat.mul_mod_right _ _
        rw [Address.add_eq (by omega : s - 1 - cur % s + 1 < 2 ^ 64), Address.add, Nat.mod_mod_of_dvd _ hd,
          show s - 1 - cur % s + 1 = s - cur % s by omega, e]
      have hcuts := cuts_of_spaced hs hcur' hc' hcne fun x hx y hy he => by
        obtain ⟨x', h1, h2, h3⟩ := hcut.rest x (hmem x hx).1 y (hmem y hy).1 (hmem x hx).2 he
        exact ⟨x', hmem' x' h1 (by rw [h2]; exact (hmem x hx).2), h2, h3⟩
      have hlen := length_rest hc hc' hcne hcb
      have ih := ih c' _ hc' hcne (Address.add_lt _ _) hcuts (by omega)
      refine ⟨?_, ?_, ?_, ?_, ?_, ?_⟩
      · intro g hg
        rcases List.mem_cons.mp hg with rfl | hg
        · exact ⟨hl, hlp⟩
        · exact ⟨(ih.ok g hg).1, (ih.ok g hg).2.trans hcp⟩
      · intro g hg
        rcases List.mem_cons.mp hg with rfl | hg
        · exact hpage
        · exact ih.page g hg
      · rw [List.flatMap_cons]
        refine (hlb.append (ih.flat.trans hcb)).trans ?_
        exact List.filter_append_perm _ _
      · refine List.pairwise_cons.mpr ⟨fun g hg y hy z hz => ?_, ih.apart⟩
        obtain ⟨h1, h2⟩ := List.mem_filter.mp (hlb.subset hy)
        have hz' := ih.flat.subset (List.mem_flatMap.mpr ⟨g, hg, hz⟩)
        rw [(hcut.first y h1).mp (by simpa using h2)]
        exact ((hmem z hz').2).symm
      · intro _ g hg
        rcases List.mem_cons.mp hg with rfl | hg
        · exact hlne
        · exact ih.nonempty hcne g hg
      · intro g hg x hx
        rcases List.mem_cons.mp hg with rfl | hg
        · exact hcutl x hx
        · obtain ⟨d, hd, h1⟩ := ih.inside g hg x hx
          obtain ⟨d', hd', h2⟩ := hcin d hd
          have hp := (ih.ok g hg).1.pieces x hx
          obtain ⟨y, hy, hyx⟩ := exists_mem_piece hx hp (Nat.le_refl _) (by have := hp.1; omega)
          have hxp := (hmem y (ih.flat.subset (List.mem_flatMap.mpr ⟨g, hg, hy⟩))).2
          refine ⟨d', hd', h1.trans (h2.mono fun v h3 h4 h5 h6 => hxp ?_)⟩
          rw [hyx, ← h5]
          exact (hfirst d' hd' v h3 h4).mp h6

/-- Without a straddle, `page_chunks` cuts a chunk into its pages. -/
theorem pageChunks_pages {s : Nat} (hs : 0 < s) (hs' : s < 2 ^ 64) (hd : s ∣ 2 ^ 64) {c : TranslationChunk T}
    (hc : c.Ok) (hn : NoStraddle s c.HasAddr) : ArePages s c ((pageChunks c c.minAddr s).map (·.2)) := by
  by_cases hne : c.vec = []
  · obtain ⟨l, hgs, hok, hlv, hlp⟩ := pageChunks_nil hne s
    rw [hgs]
    exact ⟨by simpa using ⟨hok, hlp⟩, by simp [hlv], by simp [hlv, hne], by simp, fun h => absurd hne h, by simp [hlv]⟩
  · obtain ⟨m, hm, hme⟩ := hc.exists_min hne
    obtain ⟨d, hd', hde⟩ := (hc.exact hne).2
    have h1 := (hc.pieces d hd').2
    have h2 := hc.mem_bounds hm
    exact collect_pages hs hs' hd _ c c.minAddr hc hne (by omega) (first_of_noStraddle hs hc hne hn) (by omega)

end TranslationChunk

end Jiaa
