import StreamDecode.Proofs.ReadingContainers

set_option autoImplicit false

/-! # Trees are read as they are written

The loop of trees keeps a stack of open nodes. `Wire.Around` says what is written behind a subtree to
complete the nodes that it stands in, and `Wire.Loop` what the loop has to read with a given stack.
Closing the nodes that are complete leaves the same to be read (`Wire.rest_close`), so a round of the
loop reads one node of what its stack calls for (`Wire.loop_eq`). Each node has a count of eight
bytes, and so the limit on the number of nodes is never met. -/

namespace StreamDecode

variable {α : Type} {n : Nat}

/-! ## What a stack of open nodes calls for -/

namespace Wire

/-- What is written of the subtrees that a node misses, and the tree that they complete it to. -/
def Fills (w : Wire α) (node : OpenNode α) : Wire (Tree α) := fun t p =>
  ∃ subtrees : List (Tree α), subtrees.length = node.missing ∧ EachOf (TreeOf w) subtrees p ∧
    t = .node node.root (node.subtrees.reverse ++ subtrees)

/-- What is written behind a subtree of the innermost open node, and the whole tree. -/
def Around (w : Wire α) : List (OpenNode α) → Tree α → Wire (Tree α)
  | [], t => Only t
  | node :: nodes, t => (Fills w (node.add t)).Then (Around w nodes)

/-- What the loop of trees has to read with the given open nodes, and the whole tree. -/
def Loop (w : Wire α) (stack : List (OpenNode α)) : Wire (Tree α) := (TreeOf w).Then (Around w stack)

/-- What is to be read once the complete nodes are closed. -/
def Rest (w : Wire α) : Tree α ⊕ List (OpenNode α) → Wire (Tree α)
  | .inl t => Only t
  | .inr stack => Loop w stack

theorem treeOf_eq (w : Wire α) :
    TreeOf w = (PairOf w fun (count : UInt64) => WordOf 8 .big count.toNat).Then fun node =>
      Fills w ⟨node.1, [], node.2.toNat⟩ := by
  funext t p
  refine propext ⟨?_, ?_⟩
  · rintro ⟨hroot, ⟨hcount, heach⟩⟩
    obtain ⟨count, hlength⟩ := hcount.exists_word (by decide)
    rw [← hlength] at hcount
    refine ⟨(_, count), _, _, (List.append_assoc _ _ _).symm, ⟨_, _, rfl, hroot, hcount⟩, ?_⟩
    exact ⟨_, hlength.symm, heach, rfl⟩
  · rintro ⟨⟨root, count⟩, _, s, rfl, ⟨q, r, rfl, hroot, hcount⟩, subtrees, hlength, heach, rfl⟩
    dsimp only at hroot hcount hlength
    rw [← hlength] at hcount
    rw [List.append_assoc]
    exact .node hroot (.counted hcount heach)

theorem fills_of_missing_eq_zero (w : Wire α) {node : OpenNode α} (h : node.missing = 0) :
    Fills w node = Only node.toTree := by
  funext t p
  refine propext ⟨?_, ?_⟩
  · rintro ⟨subtrees, hlength, heach, rfl⟩
    obtain rfl := List.eq_nil_of_length_eq_zero (hlength.trans h)
    cases heach
    exact ⟨by rw [List.append_nil, OpenNode.toTree], rfl⟩
  · rintro ⟨rfl, rfl⟩
    exact ⟨[], h.symm, .nil, by rw [List.append_nil, OpenNode.toTree]⟩

theorem fills_of_missing_ne_zero (w : Wire α) {node : OpenNode α} (h : node.missing ≠ 0) :
    Fills w node = (TreeOf w).Then fun t => Fills w (node.add t) := by
  funext whole p
  refine propext ⟨?_, ?_⟩
  · rintro ⟨subtrees, hlength, heach, rfl⟩
    cases heach with
    | nil => exact (h hlength.symm).elim
    | @cons t subtrees q r ht heach =>
        refine ⟨t, q, r, rfl, ht, subtrees, ?_, heach, ?_⟩
        · simp only [OpenNode.add, ← hlength, List.length_cons, Nat.add_sub_cancel]
        · simp [OpenNode.add]
  · rintro ⟨t, q, r, rfl, ht, subtrees, hlength, heach, rfl⟩
    refine ⟨t :: subtrees, ?_, .cons ht heach, ?_⟩
    · simp only [OpenNode.add] at hlength
      rw [List.length_cons, hlength]
      omega
    · simp [OpenNode.add]

/-- Closing the nodes that are complete leaves the same to be read. -/
theorem rest_close (w : Wire α) (node : OpenNode α) (stack : List (OpenNode α)) :
    Rest w (node.close stack) = (Fills w node).Then (Around w stack) := by
  induction stack generalizing node with
  | nil =>
      by_cases h : node.missing = 0
      · rw [fills_of_missing_eq_zero w h, only_then, OpenNode.close, if_pos h]
        rfl
      · rw [fills_of_missing_ne_zero w h, then_assoc, OpenNode.close_of_missing_ne_zero h]
        rfl
  | cons outer others ih =>
      by_cases h : node.missing = 0
      · rw [fills_of_missing_eq_zero w h, only_then, OpenNode.close, if_pos h, ih]
        rfl
      · rw [fills_of_missing_ne_zero w h, then_assoc, OpenNode.close_of_missing_ne_zero h]
        rfl

/-- What the loop reads: a node, and what is left once that is added. -/
theorem loop_eq (w : Wire α) (stack : List (OpenNode α)) :
    Loop w stack = (PairOf w fun (count : UInt64) => WordOf 8 .big count.toNat).Then fun node =>
      Rest w (OpenNode.close ⟨node.1, [], node.2.toNat⟩ stack) := by
  simp only [rest_close]
  rw [Loop, treeOf_eq, then_assoc]

end Wire

/-! ## The loop -/

namespace Decoder.Reads

theorem treeLoop {element : Decoder Bytes α} {w : Wire α} (he : element.Reads n w) {limit : Nat}
    (hn : n ≤ 8 * limit) (stack : List (OpenNode α)) :
    (treeLoop element limit stack).Reads n (Wire.Loop w stack) := by
  induction limit generalizing n stack with
  | zero =>
      have hnone {c : Cursor Bytes} : ¬ c.input.length < n := by omega
      exact ⟨he.composed.treeLoop 0 stack, fun _ hlt => (hnone hlt).elim, fun _ hlt =>
        (hnone hlt).elim⟩
  | succ limit ih =>
      have hnode : (nodeOf element).Reads n _ := he.pairOf word64be
      rw [treeLoop_succ hnode.composed.linear, Wire.loop_eq]
      refine hnode.bind (fun node => ?_) fun node q hq => ?_
      · unfold treeRest
        split
        · exact .pure _
        · exact he.composed.treeLoop limit _
      · -- a node has its count of eight bytes at least, so the limit is never met
        have hshort : n - q.length ≤ 8 * limit := by
          obtain ⟨q, r, rfl, -, hlength, -⟩ := hq
          rw [List.length_append, hlength]
          omega
        unfold treeRest
        split
        next t hclose => rw [hclose]; exact pure t
        next stack hclose => rw [hclose]; exact ih (he.mono (Nat.sub_le _ _)) hshort stack

theorem treeOf {element : Decoder Bytes α} {w : Wire α} (he : element.Reads n w)
    (hn : n ≤ UInt64.size) : (Decoder.treeOf element).Reads n (Wire.TreeOf w) := by
  have hlimit : n ≤ 8 * nodeLimit := hn.trans (by decide)
  have hloop := he.treeLoop hlimit []
  rwa [Wire.Loop, show Wire.Around w [] = Wire.Only from rfl, Wire.then_only] at hloop

end Decoder.Reads

end StreamDecode
