/-
  Jiaa.Game.Entities — the walk over the entities of the game (jiaa-src `egggame.c`,
  `egggame.h`).

  The entities are in a binary tree with parent pointers. Each round of the loop goes from a
  copy of a node to one of the next node: down to the leftmost one on the right, or up. On
  the way up it asks whether it comes from the right by comparing entity pointers.

  - `runs_subtree`: what is visited from the leftmost node of a subtree until it is left;
  - `iterateEntities_visits`: the walk ends, and which nodes it visits;
  - `iterateEntities_iff`: when these are all nodes.
-/

import Jiaa.Lib.Fuel
import Jiaa.Mem.GuestMemory
import Mathlib.Data.List.Perm.Subperm

namespace Jiaa.Game

open Lib.Fuel

/-- The fields that the walk reads; `type2Child` is the left child, `type1Ents` the parent and
    `type2Entry` the right child. -/
structure CEntTypeNeutral where
  type2Child : Nat
  type1Ents : Nat
  type2Entry : Nat
  lastEntry : UInt8
  entity : Nat
  deriving DecidableEq, Repr

def CEntTypeNeutral.ofBytes (b : List UInt8) : CEntTypeNeutral where
  type2Child := leU64 (b.take 8)
  type1Ents := leU64 ((b.drop 8).take 8)
  type2Entry := leU64 ((b.drop 0x10).take 8)
  lastEntry := b.getD 0x19 0
  entity := leU64 ((b.drop 0x28).take 8)

/-- A copy of a node, and where it was read. -/
structure Copy extends CEntTypeNeutral where
  addr : Nat
  deriving DecidableEq, Repr

/-- `virt_read_raw_into` of `sizeof(struct CEntTypeNeutral)` bytes. -/
def readNode (memory : GuestMemory) (addr : Nat) : Copy := ⟨.ofBytes (memory.read addr 0x30), addr⟩

/-! ## The loops -/

/-- The loop upwards, with `m` read; `none` if the rounds are used up. -/
def climb (memory : GuestMemory) : Nat → Copy → Copy → Option Copy
  | 0, _, _ => none
  | rounds + 1, m, entityList =>
    if m.lastEntry ≠ 0 then some m
    else if entityList.entity ≠ (readNode memory m.type2Entry).entity then some m
    else climb memory rounds (readNode memory m.type1Ents) m

/-- The loop downwards, with `n` read. -/
def descend (memory : GuestMemory) : Nat → Copy → Copy → Option Copy
  | 0, _, _ => none
  | rounds + 1, n, entityList =>
    if n.lastEntry ≠ 0 then some entityList else descend memory rounds (readNode memory n.type2Child) n

/-- From an entry to the next one. -/
def gotoNext (memory : GuestMemory) (rounds : Nat) (entityList : Copy) : Option Copy :=
  let type2Entry := readNode memory entityList.type2Entry
  if type2Entry.lastEntry ≠ 0 then climb memory rounds (readNode memory entityList.type1Ents) entityList
  else descend memory rounds (readNode memory type2Entry.type2Child) (readNode memory entityList.type2Entry)

/-- The entries that the body of the `do` loop is entered with; `inner` rounds for each of the
    loops in it. -/
def visit (memory : GuestMemory) (inner : Nat) : Nat → Copy → Option (List Copy)
  | 0, _ => none
  | rounds + 1, entityList => (gotoNext memory inner entityList).bind fun next =>
    if next.lastEntry ≠ 0 then some [entityList] else (visit memory inner rounds next).map (entityList :: ·)

def iterateEntities (memory : GuestMemory) (entityListAddr rounds : Nat) : Option (List Copy) :=
  let entityList2 := readNode memory entityListAddr
  if entityList2.type1Ents = 0 then some []
  else visit memory rounds rounds (readNode memory entityList2.type1Ents)

/-! ## Trees in memory -/

/-- A tree of nodes at addresses. -/
inductive Tree where
  | nil
  | node (addr : Nat) (left right : Tree)
  deriving DecidableEq, Repr

namespace Tree

/-- Where a pointer to the tree points; to the header if it is empty. -/
def root (header : Nat) : Tree → Nat
  | nil => header
  | node addr _ _ => addr

def addrs : Tree → List Nat
  | nil => []
  | node addr left right => left.addrs ++ addr :: right.addrs

/-- The nodes lie in memory, below one at `parent`. -/
def Stored (memory : GuestMemory) (header parent : Nat) : Tree → Prop
  | nil => True
  | node addr left right =>
    (readNode memory addr).lastEntry = 0 ∧ (readNode memory addr).type1Ents = parent ∧
      (readNode memory addr).type2Child = left.root header ∧ (readNode memory addr).type2Entry = right.root header ∧
      left.Stored memory header addr ∧ right.Stored memory header addr

end Tree

/-- The header at an address and the nodes of a tree. -/
structure StoresTree (memory : GuestMemory) (header : Nat) (t : Tree) : Prop where
  lastEntry : (readNode memory header).lastEntry ≠ 0
  root : (readNode memory header).type1Ents = t.root header
  nodes : t.Stored memory header header
  nodup : (header :: t.addrs).Nodup
  notNull : ∀ a ∈ header :: t.addrs, a ≠ 0
  empty : t = .nil → (readNode memory header).type2Entry = header

/-! ## What the walk visits -/

namespace Tree

/-- Where the left subtree of the node at an address is entered: as far left as possible. -/
def leftmost : Tree → Nat → Nat
  | nil, addr => addr
  | node addr left _, _ => left.leftmost addr

variable (entity : Nat → Nat) (header : Nat)

/-- What is visited from there on: on the way up from the left, a node is passed over with its
    right subtree if the entity on the right is the same. -/
def visits : Tree → List Nat
  | nil => []
  | node addr left right =>
    if left = nil then addr :: right.visits
    else left.visits ++ if entity (left.root header) = entity (right.root header) then [] else addr :: right.visits

/-- No node on the left has the same entity as the one on the right, or as the header if there
    is none. -/
def Distinguished : Tree → Prop
  | nil => True
  | node _ left right =>
    (left ≠ nil → entity (left.root header) ≠ entity (right.root header)) ∧ left.Distinguished ∧ right.Distinguished

theorem visits_sublist (t : Tree) : (t.visits entity header).Sublist t.addrs := by
  induction t with
  | nil => exact List.Sublist.refl _
  | node addr left right ihl ihr =>
    unfold visits addrs
    split
    · next hl =>
      subst hl
      exact ihr.cons_cons addr
    · refine ihl.append ?_
      split
      · exact List.nil_sublist _
      · exact ihr.cons_cons addr

theorem visits_eq_iff (t : Tree) : t.visits entity header = t.addrs ↔ t.Distinguished entity header := by
  induction t with
  | nil => exact iff_of_true rfl trivial
  | node addr left right ihl ihr =>
    have hlel := (visits_sublist entity header left).length_le
    have hler := (visits_sublist entity header right).length_le
    by_cases hl : left = nil
    · subst hl
      simp [visits, addrs, Distinguished, ihr]
    · by_cases he : entity (left.root header) = entity (right.root header)
      · refine iff_of_false (fun h => ?_) fun h => h.1 hl he
        -- the node itself is missing
        have hlen := congrArg List.length h
        simp [visits, addrs, hl, he] at hlen
        omega
      · simp only [visits, addrs, Distinguished, hl, he, if_false, ne_eq, not_false_eq_true, true_imp_iff, true_and,
          ← ihl, ← ihr]
        refine ⟨fun h => ?_, fun ⟨hl, hr⟩ => by rw [hl, hr]⟩
        have hlen := congrArg List.length h
        simp only [List.length_append, List.length_cons] at hlen
        obtain ⟨hleft, hright⟩ := List.append_inj h (by omega)
        exact ⟨hleft, (List.cons.inj hright).2⟩

end Tree

/-! ## The loops come to an end -/

/-- Entries that are visited from `e` on; none if it is the header. -/
def Runs (memory : GuestMemory) (e : Copy) (entries : List Copy) : Prop :=
  if e.lastEntry ≠ 0 then entries = []
  else ∃ k, ∀ inner rounds, k ≤ inner → k ≤ rounds → visit memory inner rounds e = some entries

section Loops

variable {memory : GuestMemory} {m n e x : Copy}

theorem climb_header (hm : m.lastEntry ≠ 0) : Ends (fun rounds => climb memory rounds m e) m :=
  Ends.done fun rounds => by simp [climb, hm]

theorem climb_break (hm : m.lastEntry = 0) (he : e.entity ≠ (readNode memory m.type2Entry).entity) :
    Ends (fun rounds => climb memory rounds m e) m :=
  Ends.done fun rounds => by simp [climb, hm, he]

theorem climb_up (hm : m.lastEntry = 0) (he : e.entity = (readNode memory m.type2Entry).entity)
    (h : Ends (fun rounds => climb memory rounds (readNode memory m.type1Ents) m) x) :
    Ends (fun rounds => climb memory rounds m e) x :=
  Ends.step (fun rounds => by simp [climb, hm, he]) h

theorem runs_step {entries : List Copy} (he : e.lastEntry = 0) (hnext : Ends (fun rounds => gotoNext memory rounds e) x)
    (hx : Runs memory x entries) : Runs memory e (e :: entries) := by
  obtain ⟨k, hk⟩ := hnext
  rw [Runs, if_neg (by simp [he])]
  unfold Runs at hx
  split at hx
  · next hlast =>
    subst hx
    refine ⟨k + 1, fun inner rounds hi hr => ?_⟩
    obtain ⟨r, rfl⟩ : ∃ r, rounds = r + 1 := ⟨rounds - 1, by omega⟩
    simp [visit, hk inner (by omega), hlast]
  · next hlast =>
    obtain ⟨k', hk'⟩ := hx
    refine ⟨k + k' + 1, fun inner rounds hi hr => ?_⟩
    obtain ⟨r, rfl⟩ : ∃ r, rounds = r + 1 := ⟨rounds - 1, by omega⟩
    simp [visit, hk inner (by omega), hlast, hk' inner r (by omega) (by omega)]

end Loops

section Walk

variable {memory : GuestMemory} {header : Nat} (hlast : (readNode memory header).lastEntry ≠ 0)
include hlast

theorem descend_leftmost : ∀ (t : Tree) {p a : Nat}, t.Stored memory header p →
    Ends (fun rounds => descend memory rounds (readNode memory (t.root header)) (readNode memory a))
      (readNode memory (t.leftmost a)) := by
  intro t
  induction t with
  | nil =>
    intro p a _
    exact Ends.done fun rounds => by simp [descend, Tree.root, Tree.leftmost, hlast]
  | node addr left right ihl ihr =>
    intro p a h
    obtain ⟨hentry, -, hleft, -, hl, -⟩ := h
    exact Ends.step (fun rounds => by simp [descend, Tree.root, hentry, hleft]) (ihl (a := addr) hl)

/-- From a node on, through its right subtree and out of it: `x` is where the way up from the
    node ends. -/
theorem runs_node {addr p : Nat} {left right : Tree} {x : Copy} {rest : List Copy}
    (h : (Tree.node addr left right).Stored memory header p)
    (hsub : ∀ y entries, right ≠ .nil →
      Ends (fun rounds => climb memory rounds (readNode memory addr) (readNode memory (right.root header))) y →
      Runs memory y entries →
      Runs memory (readNode memory (right.leftmost addr))
        ((right.visits (fun a => (readNode memory a).entity) header).map (readNode memory) ++ entries))
    (hexit : Ends (fun rounds => climb memory rounds (readNode memory p) (readNode memory addr)) x)
    (hx : Runs memory x rest) :
    Runs memory (readNode memory addr)
      ((addr :: right.visits (fun a => (readNode memory a).entity) header).map (readNode memory) ++ rest) := by
  obtain ⟨hentry, hparent, -, hright, -, hr⟩ := h
  cases right with
  | nil =>
    refine runs_step hentry ?_ hx
    simpa [gotoNext, hright, Tree.root, hlast, hparent] using hexit
  | node b l r =>
    have hup : Ends (fun rounds => climb memory rounds (readNode memory addr) (readNode memory b)) x := by
      refine climb_up hentry ?_ (by rwa [hparent])
      rw [hright, Tree.root]
    refine runs_step hentry ?_ (hsub x rest nofun hup hx)
    have hdown := descend_leftmost hlast l (a := b) hr.2.2.2.2.1
    simpa [gotoNext, hright, Tree.root, hr.1, hr.2.2.1, Tree.leftmost] using hdown

/-- A subtree that is entered as far left as possible. -/
theorem runs_subtree : ∀ (t : Tree) {p a : Nat} (x : Copy) (rest : List Copy), t.Stored memory header p → t ≠ .nil →
    Ends (fun rounds => climb memory rounds (readNode memory p) (readNode memory (t.root header))) x →
    Runs memory x rest →
    Runs memory (readNode memory (t.leftmost a))
      ((t.visits (fun a => (readNode memory a).entity) header).map (readNode memory) ++ rest) := by
  intro t
  induction t with
  | nil => exact fun _ _ _ h => absurd rfl h
  | node addr left right ihl ihr =>
    intro p a x rest h _ hexit hx
    have hnode := runs_node hlast h (fun y entries hne hy hentries => ihr y entries h.2.2.2.2.2 hne hy hentries) hexit
      hx
    by_cases hl : left = .nil
    · subst hl
      simpa [Tree.visits, Tree.leftmost] using hnode
    · obtain ⟨hentry, hparent, hleft, hright, hsl, -⟩ := h
      by_cases he : (readNode memory (left.root header)).entity = (readNode memory (right.root header)).entity
      · -- taken for the right child: the way up goes on
        have hup :
            Ends (fun rounds => climb memory rounds (readNode memory addr) (readNode memory (left.root header))) x :=
          climb_up hentry (by rwa [hright]) (by rwa [hparent])
        simpa [Tree.visits, Tree.leftmost, hl, he] using ihl (a := addr) x rest hsl hl hup hx
      · have hbreak :
            Ends (fun rounds => climb memory rounds (readNode memory addr) (readNode memory (left.root header)))
              (readNode memory addr) :=
          climb_break hentry (by rwa [hright])
        simpa [Tree.visits, Tree.leftmost, hl, he] using ihl (a := addr) _ _ hsl hl hbreak hnode

end Walk

/-! ## The whole walk -/

namespace Tree

def left : Tree → Tree
  | nil => nil
  | node _ left _ => left

/-- The walk starts at the root; with an empty tree that is the header. -/
def entered (entity : Nat → Nat) (header : Nat) : Tree → List Nat
  | nil => [header]
  | node addr _ right => addr :: right.visits entity header

end Tree

section Stored

variable {memory : GuestMemory} {header : Nat} {t : Tree}

theorem iterateEntities_visits (h : StoresTree memory header t) : Ends (iterateEntities memory header)
    ((t.entered (fun a => (readNode memory a).entity) header).map (readNode memory)) := by
  have hheader : Ends (fun rounds => climb memory rounds (readNode memory header) (readNode memory (t.root header)))
      (readNode memory header) :=
    climb_header h.lastEntry
  cases t with
  | nil =>
    obtain ⟨k, hk⟩ := hheader
    have hne : header ≠ 0 := h.notNull header (List.mem_cons_self ..)
    refine Ends.of_succ (k := k) fun rounds hr => ?_
    have hclimb := hk (rounds + 1) (by omega)
    rw [Tree.root] at hclimb
    simp [iterateEntities, h.root, Tree.root, hne, visit, gotoNext, h.empty rfl, h.lastEntry, hclimb, Tree.entered]
  | node addr left right =>
    have hne : addr ≠ 0 := h.notNull addr (by simp [Tree.addrs])
    have hstop : Runs memory (readNode memory header) [] := by simp [Runs, h.lastEntry]
    have hruns := runs_node h.lastEntry h.nodes
      (fun y entries hright hy hentries => runs_subtree h.lastEntry right y entries h.nodes.2.2.2.2.2 hright hy hentries)
      hheader hstop
    rw [Runs, if_neg (by simp [h.nodes.1]), List.append_nil] at hruns
    obtain ⟨k, hk⟩ := hruns
    refine ⟨k, fun rounds hr => ?_⟩
    simpa [iterateEntities, h.root, Tree.root, hne, Tree.entered] using hk rounds rounds hr hr

/-- The walk ends, and the body is entered once with each node of the tree. -/
def VisitsOnce (memory : GuestMemory) (header : Nat) (t : Tree) : Prop :=
  ∃ entries, Ends (iterateEntities memory header) entries ∧ ∀ a ∈ t.addrs, (entries.map Copy.addr).count a = 1

theorem visitsOnce_entered (h : StoresTree memory header t) : VisitsOnce memory header t ↔
    ∀ a ∈ t.addrs, (t.entered (fun a => (readNode memory a).entity) header).count a = 1 := by
  have hvisits := iterateEntities_visits h
  have haddr : ∀ l : List Nat, (l.map (readNode memory)).map Copy.addr = l := fun l => by
    rw [List.map_map]
    exact List.map_id l
  constructor
  · intro ⟨entries, hends, hcount⟩
    rwa [hends.unique hvisits, haddr] at hcount
  · intro hcount
    exact ⟨_, hvisits, by rwa [haddr]⟩

/-- Nodes of a sublist that has them all. -/
theorem eq_of_sublist {l l' : List Nat} (h : l.Sublist l') (hl' : l'.Nodup) (hall : ∀ a ∈ l', a ∈ l) : l = l' :=
  h.eq_of_length_le (hl'.subperm hall).length_le

theorem iterateEntities_iff (h : StoresTree memory header t) : VisitsOnce memory header t ↔
    t.left = .nil ∧ t.Distinguished (fun a => (readNode memory a).entity) header := by
  rw [visitsOnce_entered h]
  cases t with
  | nil => exact iff_of_true nofun ⟨rfl, trivial⟩
  | node addr left right =>
    have hnodup := (List.nodup_cons.mp h.nodup).2
    simp only [Tree.addrs] at hnodup ⊢
    obtain ⟨hleft, hrest, hdisjoint⟩ := List.nodup_append.mp hnodup
    obtain ⟨haddr, hright⟩ := List.nodup_cons.mp hrest
    have hsub := Tree.visits_sublist (fun a => (readNode memory a).entity) header right
    simp only [Tree.entered, Tree.left]
    constructor
    · intro hcount
      have hin : ∀ a ∈ left.addrs ++ addr :: right.addrs,
          a ∈ addr :: right.visits (fun a => (readNode memory a).entity) header := fun a ha =>
        List.count_pos_iff.mp (by rw [hcount a ha]; exact Nat.one_pos)
      have hnil : left = .nil := by
        cases left with
        | nil => rfl
        | node b l r =>
          -- the root of the left subtree is not visited
          have hb : b ∈ (Tree.node b l r).addrs := by simp [Tree.addrs]
          exact absurd rfl (hdisjoint b hb b ((hsub.cons_cons addr).subset (hin b (List.mem_append_left _ hb))))
      have heq := eq_of_sublist (hsub.cons_cons addr) hrest fun a ha => hin a (List.mem_append_right _ ha)
      refine ⟨hnil, fun hne => absurd hnil hne, ?_, (Tree.visits_eq_iff _ _ right).mp (List.cons.inj heq).2⟩
      rw [hnil]
      trivial
    · intro ⟨hnil, _, _, hdist⟩ a ha
      rw [(Tree.visits_eq_iff _ _ right).mpr hdist]
      rw [hnil] at ha
      exact List.count_eq_one_of_mem hrest ha

/-- A tree of three nodes, one on the right of the root with one on the left, which has an
    entity. -/
def threeNodes : GuestMemory := .ofWords
  [(0x108, 0x1000), (0x118, 0x100), (0x1000, 0x100), (0x1008, 0x100), (0x1010, 0x2000), (0x1018, 0),
   (0x2000, 0x3000), (0x2008, 0x1000), (0x2010, 0x100), (0x2018, 0),
   (0x3000, 0x100), (0x3008, 0x2000), (0x3010, 0x100), (0x3018, 0), (0x3028, 0x5000)]

theorem threeNodes_visited :
    VisitsOnce threeNodes 0x100 (.node 0x1000 .nil (.node 0x2000 (.node 0x3000 .nil .nil) .nil)) := by
  have hstored : StoresTree threeNodes 0x100 (.node 0x1000 .nil (.node 0x2000 (.node 0x3000 .nil .nil) .nil)) := by
    refine ⟨by decide +kernel, by decide +kernel, ?_, by decide, by decide, nofun⟩
    exact ⟨by decide +kernel, by decide +kernel, by decide +kernel, by decide +kernel, trivial,
      ⟨by decide +kernel, by decide +kernel, by decide +kernel, by decide +kernel,
        ⟨by decide +kernel, by decide +kernel, by decide +kernel, by decide +kernel, trivial, trivial⟩, trivial⟩⟩
  refine (iterateEntities_iff hstored).mpr ⟨rfl, nofun, trivial, fun _ => ?_, ⟨nofun, trivial, trivial⟩, trivial⟩
  decide +kernel

/-- A tree of two nodes, the second one on the left of the first. -/
def twoNodes : GuestMemory := .ofWords
  [(0x108, 0x1000), (0x118, 0x100), (0x1000, 0x2000), (0x1008, 0x100), (0x1010, 0x100), (0x1018, 0),
   (0x2000, 0x100), (0x2008, 0x1000), (0x2010, 0x100), (0x2018, 0)]

theorem twoNodes_stored : StoresTree twoNodes 0x100 (.node 0x1000 (.node 0x2000 .nil .nil) .nil) := by
  refine ⟨by decide +kernel, by decide +kernel, ?_, by decide, by decide, nofun⟩
  exact ⟨by decide +kernel, by decide +kernel, by decide +kernel, by decide +kernel,
    ⟨by decide +kernel, by decide +kernel, by decide +kernel, by decide +kernel, trivial, trivial⟩, trivial⟩

/-- The node on the left is not visited. -/
theorem left_not_visited : StoresTree twoNodes 0x100 (.node 0x1000 (.node 0x2000 .nil .nil) .nil) ∧
    ¬VisitsOnce twoNodes 0x100 (.node 0x1000 (.node 0x2000 .nil .nil) .nil) := by
  refine ⟨twoNodes_stored, fun h => ?_⟩
  rw [visitsOnce_entered twoNodes_stored] at h
  exact absurd (h 0x2000 (by decide)) (by decide)

end Stored

end Jiaa.Game
