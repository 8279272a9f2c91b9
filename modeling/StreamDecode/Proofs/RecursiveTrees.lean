import Mathlib.Algebra.Ring.Nat
import StreamDecode.Proofs.Conservation
import StreamDecode.Proofs.Endings

set_option autoImplicit false

/-! # The loop of trees is the recursive definition

A tree is a root and a list of trees (`Decoder.treeRound`). Decoded like this, every subtree would be
decoded from inside the decoder of the tree around it. `treeOf` keeps the nodes that miss subtrees on
a stack of its own instead, and closes those that are complete after each count.

The stack is what the recursive decoder still has to do: `Decoder.around` completes the open nodes
around a subtree, and closing the nodes that are complete leaves the same to be done
(`Decoder.afterClose_close`). So a round of the loop is a node of the recursion, and both do the same
as long as neither is cut off: the recursion below some depth, and the loop after some number of
nodes. Since each node is followed by a count of eight bytes, the bytes that a run is given say how
far that is.

The recursion can be said as an equation as well, of a decoder with itself inside. The loop solves
it, and since a node is read before every subtree, nothing else does: two solutions that do the same
in all runs of `n` nodes do so in those of one node more. -/

namespace StreamDecode

variable {β α γ : Type}

/-! ## Decoders that do the same -/

namespace Decoder

/-- Run at the cursor and fed the chunks, both decoders wait, or both fail alike, or both succeed
    alike, or neither has asked for all of the chunks. -/
structure BehavesLike (d e : Decoder β α) (c : Cursor β) (chunks : List β) : Prop where
  waits : d.Waits c chunks ↔ e.Waits c chunks
  fails : ∀ here failure, d.FailsAt c chunks here failure ↔ e.FailsAt c chunks here failure
  succeeds : ∀ here value, d.SucceedsAt c chunks here value ↔ e.SucceedsAt c chunks here value

namespace BehavesLike

variable {d e f : Decoder β α} {c : Cursor β} {chunks : List β}

theorem refl (d : Decoder β α) (c : Cursor β) (chunks : List β) : d.BehavesLike d c chunks :=
  ⟨Iff.rfl, fun _ _ => Iff.rfl, fun _ _ => Iff.rfl⟩

theorem symm (h : d.BehavesLike e c chunks) : e.BehavesLike d c chunks :=
  ⟨h.waits.symm, fun here failure => (h.fails here failure).symm,
    fun here value => (h.succeeds here value).symm⟩

theorem trans (h : d.BehavesLike e c chunks) (h' : e.BehavesLike f c chunks) :
    d.BehavesLike f c chunks :=
  ⟨h.waits.trans h'.waits, fun here failure => (h.fails here failure).trans (h'.fails here failure),
    fun here value => (h.succeeds here value).trans (h'.succeeds here value)⟩

/-- Sequences do the same if their first parts do, however much of the chunks these are fed, and if
    what follows does wherever the first part has succeeded. -/
theorem bind {d d' : Decoder β α} {next next' : α → Decoder β γ} (hd : d.Linear) (hd' : d'.Linear)
    (hn : ∀ value, (next value).Linear) (hn' : ∀ value, (next' value).Linear)
    (hfirst : ∀ fed rest, chunks = fed ++ rest → d.BehavesLike d' c fed)
    (h : ∀ fed rest middle value, chunks = fed ++ rest → d.SucceedsAt c fed middle value →
      (next value).BehavesLike (next' value) middle rest) :
    (d.bind next).BehavesLike (d'.bind next') c chunks := by
  have hall : d.BehavesLike d' c chunks := hfirst chunks [] (List.append_nil chunks).symm
  have hlater {P Q : List β → List β → Cursor β → α → Prop}
      (hpq : ∀ fed rest middle value, chunks = fed ++ rest → d.SucceedsAt c fed middle value →
        (P fed rest middle value ↔ Q fed rest middle value)) :
      (∃ fed rest middle value, chunks = fed ++ rest ∧ d.SucceedsAt c fed middle value ∧
          P fed rest middle value) ↔
        ∃ fed rest middle value, chunks = fed ++ rest ∧ d'.SucceedsAt c fed middle value ∧
          Q fed rest middle value := by
    refine exists_congr fun fed => exists_congr fun rest => exists_congr fun middle =>
      exists_congr fun value => and_congr_right fun hchunks => ?_
    rw [← (hfirst fed rest hchunks).succeeds middle value]
    exact and_congr_right fun hsucceeds => hpq fed rest middle value hchunks hsucceeds
  refine ⟨?_, fun here failure => ?_, fun here last => ?_⟩
  · rw [waits_bind_iff hd hn, waits_bind_iff hd' hn']
    exact or_congr hall.waits (hlater fun fed rest middle value hchunks hsucceeds =>
      (h fed rest middle value hchunks hsucceeds).waits)
  · rw [failsAt_bind_iff hd hn, failsAt_bind_iff hd' hn']
    exact or_congr (hall.fails here failure) (hlater fun fed rest middle value hchunks hsucceeds =>
      (h fed rest middle value hchunks hsucceeds).fails here failure)
  · rw [succeedsAt_bind_iff hd hn, succeedsAt_bind_iff hd' hn']
    exact hlater fun fed rest middle value hchunks hsucceeds =>
      (h fed rest middle value hchunks hsucceeds).succeeds here last

end BehavesLike

/-- Run again and again and fed the chunks, the decoder has succeeded at least `n` times. -/
inductive SucceedsTimes (d : Decoder β α) : Nat → Cursor β → List β → Prop where
  | zero (c : Cursor β) (chunks : List β) : SucceedsTimes d 0 c chunks
  | succ {n : Nat} {c middle : Cursor β} {fed rest : List β} {value : α}
      (first : d.SucceedsAt c fed middle value) (later : SucceedsTimes d n middle rest) :
      SucceedsTimes d (n + 1) c (fed ++ rest)

namespace SucceedsTimes

variable {d : Decoder β α} {m n : Nat} {c : Cursor β} {chunks : List β}

theorem mono (h : d.SucceedsTimes n c chunks) (hmn : m ≤ n) : d.SucceedsTimes m c chunks := by
  induction h generalizing m with
  | zero c chunks =>
      obtain rfl := Nat.le_zero.1 hmn
      exact .zero c chunks
  | succ first later ih =>
      cases m with
      | zero => exact .zero _ _
      | succ m => exact .succ first (ih (Nat.le_of_succ_le_succ hmn))

/-- Chunks that are not asked for do no harm. -/
theorem append (h : d.SucceedsTimes n c chunks) (more : List β) :
    d.SucceedsTimes n c (chunks ++ more) := by
  induction h with
  | zero c chunks => exact .zero c _
  | succ first later ih =>
      rw [List.append_assoc]
      exact .succ first ih

end SucceedsTimes

/-! ## The recursive definition -/

/-- Decode the subtrees that a node misses. -/
def fill (subtree : Decoder β (Tree α)) (node : OpenNode α) : Decoder β (Tree α) :=
  (fold node.missing subtree node.subtrees fun subtrees t => t :: subtrees).map fun subtrees =>
    .node node.root subtrees.reverse

theorem fill_of_missing_eq_zero (subtree : Decoder β (Tree α)) {node : OpenNode α}
    (h : node.missing = 0) : fill subtree node = Decoder.pure node.toTree := by
  rw [fill, h]
  rfl

theorem fill_of_missing_ne_zero {subtree : Decoder β (Tree α)} (hs : subtree.Linear)
    {node : OpenNode α} (h : node.missing ≠ 0) :
    fill subtree node = subtree.bind fun t => fill subtree (node.add t) := by
  obtain ⟨n, hn⟩ := Nat.exists_eq_succ_of_ne_zero h
  rw [fill, hn, Nat.succ_eq_add_one, fold_succ hs, map_bind]
  congr 1
  funext t
  rw [fill, OpenNode.add, hn, Nat.succ_eq_add_one, Nat.add_sub_cancel]

theorem Linear.fill {subtree : Decoder β (Tree α)} (hs : subtree.Linear) (node : OpenNode α) :
    (Decoder.fill subtree node).Linear :=
  (Linear.fold hs node.missing node.subtrees fun subtrees t => t :: subtrees).map _

section

variable [Buffer β]

/-- A root, then a count and as many subtrees, each decoded by the given decoder. -/
def treeRound (element : Decoder β α) (subtree : Decoder β (Tree α)) : Decoder β (Tree α) :=
  element.bind fun root => (listOf subtree).map fun subtrees => .node root subtrees

/-- The recursive definition down to some depth, with a decoder for all that lies deeper. -/
def treeTo (element : Decoder β α) (deeper : Decoder β (Tree α)) : Nat → Decoder β (Tree α)
  | 0 => deeper
  | depth + 1 => treeRound element (treeTo element deeper depth)

/-- A root is a node that misses as many subtrees as its count says. -/
theorem treeRound_eq (element : Decoder β α) (subtree : Decoder β (Tree α)) :
    treeRound element subtree =
      (nodeOf element).bind fun node => fill subtree ⟨node.1, [], node.2.toNat⟩ := rfl

theorem Linear.treeTo {element : Decoder β α} (hn : (nodeOf element).Linear)
    {deeper : Decoder β (Tree α)} (hd : deeper.Linear) (depth : Nat) :
    (Decoder.treeTo element deeper depth).Linear := by
  induction depth with
  | zero => exact hd
  | succ depth ih =>
      rw [Decoder.treeTo, treeRound_eq]
      exact hn.bind fun node => ih.fill _

end

/-! ## The stack -/

section

variable {trees : Nat → Decoder β (Tree α)} {depth : Nat}

/-- Complete the open nodes around a subtree of the innermost one. `trees` decodes trees down to a
    depth; the outermost node may still have subtrees of `depth - 1` levels. -/
def around (trees : Nat → Decoder β (Tree α)) (depth : Nat) :
    List (OpenNode α) → Tree α → Decoder β (Tree α)
  | [], t => Decoder.pure t
  | node :: nodes, t =>
      (fill (trees (depth - (nodes.length + 1))) (node.add t)).bind (around trees depth nodes)

/-- Decode one more subtree of the innermost open node, and complete the nodes around it. -/
def onStack (trees : Nat → Decoder β (Tree α)) (depth : Nat) (stack : List (OpenNode α)) :
    Decoder β (Tree α) :=
  (trees (depth - stack.length)).bind (around trees depth stack)

/-- What is left to do once the complete nodes are closed. -/
def afterClose (trees : Nat → Decoder β (Tree α)) (depth : Nat) :
    Tree α ⊕ List (OpenNode α) → Decoder β (Tree α)
  | .inl t => Decoder.pure t
  | .inr stack => onStack trees depth stack

theorem Linear.around (ht : ∀ depth, (trees depth).Linear) (stack : List (OpenNode α)) (t : Tree α) :
    (Decoder.around trees depth stack t).Linear := by
  induction stack generalizing t with
  | nil => exact Linear.pure t
  | cons node nodes ih => exact ((ht _).fill (node.add t)).bind ih

theorem Linear.afterClose (ht : ∀ depth, (trees depth).Linear)
    (closed : Tree α ⊕ List (OpenNode α)) : (Decoder.afterClose trees depth closed).Linear := by
  cases closed with
  | inl t => exact Linear.pure t
  | inr stack => exact (ht _).bind (Linear.around ht stack)

/-- Closing the nodes that are complete leaves the same to be done. -/
theorem afterClose_close (ht : ∀ depth, (trees depth).Linear) (node : OpenNode α)
    (stack : List (OpenNode α)) :
    afterClose trees depth (node.close stack) =
      (fill (trees (depth - (stack.length + 1))) node).bind (around trees depth stack) := by
  induction stack generalizing node with
  | nil =>
      by_cases h : node.missing = 0
      · rw [fill_of_missing_eq_zero _ h, OpenNode.close, if_pos h]
        rfl
      · rw [fill_of_missing_ne_zero (ht _) h, OpenNode.close_of_missing_ne_zero h]
        rfl
  | cons outer others ih =>
      by_cases h : node.missing = 0
      · rw [fill_of_missing_eq_zero _ h, OpenNode.close, if_pos h, ih]
        rfl
      · rw [fill_of_missing_ne_zero (ht _) h, OpenNode.close_of_missing_ne_zero h]
        rfl

end

/-! ## The loop -/

variable [Buffer β]

/-- Until it has read `limit` nodes, the loop of trees does what its stack calls for. -/
theorem treeLoop_behavesLike {element : Decoder β α} (hn : (nodeOf element).Linear)
    {deeper : Decoder β (Tree α)} (hdeeper : deeper.Linear) {limit depth : Nat}
    {stack : List (OpenNode α)} (hdepth : limit + stack.length ≤ depth) {c : Cursor β}
    {chunks : List β} (hlimit : ¬ (nodeOf element).SucceedsTimes limit c chunks) :
    (treeLoop element limit stack).BehavesLike (onStack (treeTo element deeper) depth stack) c
      chunks := by
  induction limit generalizing stack c chunks with
  | zero => exact (hlimit (.zero c chunks)).elim
  | succ limit ih =>
      have ht : ∀ depth, (treeTo element deeper depth).Linear := Linear.treeTo hn hdeeper
      -- the subtree on the stack has a level to spare, and its root takes it
      have hlevel : depth - stack.length = depth - (stack.length + 1) + 1 := by omega
      have hround : onStack (treeTo element deeper) depth stack =
          (nodeOf element).bind fun node => afterClose (treeTo element deeper) depth
            (OpenNode.close ⟨node.1, [], node.2.toNat⟩ stack) := by
        simp only [afterClose_close ht]
        rw [onStack, hlevel, treeTo, treeRound_eq]
        rfl
      rw [treeLoop_succ hn, hround]
      refine .bind hn hn (Linear.treeRest (Linear.treeLoop hn limit) stack)
        (fun node => Linear.afterClose ht _) (fun fed _ _ => .refl _ c fed)
        fun fed rest middle node hchunks hnode => ?_
      unfold treeRest
      cases hclose : OpenNode.close ⟨node.1, [], node.2.toNat⟩ stack with
      | inl t => exact .refl _ middle rest
      | inr left =>
          have hleft : left.length ≤ stack.length + 1 := OpenNode.length_le_of_close hclose
          refine ih (by omega) fun hlater => hlimit ?_
          rw [hchunks]
          exact .succ hnode hlater

/-! ## The equation -/

section

variable {element : Decoder β α} {c here : Cursor β}

/-- Nodes that are read after a tree are read after those of the tree. -/
theorem SucceedsTimes.of_treeLoop (hn : (nodeOf element).Linear) {n limit : Nat}
    {stack : List (OpenNode α)} {fed rest : List β} {t : Tree α}
    (htree : (treeLoop element limit stack).SucceedsAt c fed here t)
    (hlater : (nodeOf element).SucceedsTimes n here rest) :
    (nodeOf element).SucceedsTimes n c (fed ++ rest) := by
  induction limit generalizing stack c fed with
  | zero =>
      rw [(Linear.treeLoop hn 0 stack).succeedsAt_iff] at htree
      cases (Step.after_answer htree).2
  | succ limit ih =>
      rw [treeLoop_succ hn] at htree
      obtain ⟨first, later, middle, node, rfl, hnode, hrest⟩ :=
        (succeedsAt_bind_iff hn (Linear.treeRest (Linear.treeLoop hn limit) stack)).1 htree
      have hbehind : (nodeOf element).SucceedsTimes n middle (later ++ rest) := by
        unfold treeRest at hrest
        split at hrest
        · rw [(Linear.pure _).succeedsAt_iff] at hrest
          obtain ⟨rfl, hanswer⟩ := Step.after_answer hrest
          cases hanswer
          exact hlater
        · exact ih hrest
      rw [List.append_assoc]
      exact mono (.succ hnode hbehind) (Nat.le_succ n)

variable {tree : Decoder β (Tree α)} {n : Nat} {chunks : List β}

/-- Where trees are decoded like this by the loop, the subtrees that a node misses are as well. -/
theorem fill_behavesLike (hn : (nodeOf element).Linear) (ht : tree.Linear)
    (h : ∀ c chunks, ¬ (nodeOf element).SucceedsTimes n c chunks →
      (treeOf element).BehavesLike tree c chunks)
    {node : OpenNode α} (hlimit : ¬ (nodeOf element).SucceedsTimes n c chunks) :
    (fill (treeOf element) node).BehavesLike (fill tree node) c chunks := by
  have hloop : (treeOf element).Linear := Linear.treeLoop hn nodeLimit []
  generalize hmissing : node.missing = missing
  induction missing generalizing node c chunks with
  | zero =>
      rw [fill_of_missing_eq_zero _ hmissing, fill_of_missing_eq_zero _ hmissing]
      exact .refl _ c chunks
  | succ missing ih =>
      have hsome : node.missing ≠ 0 := by omega
      rw [fill_of_missing_ne_zero hloop hsome, fill_of_missing_ne_zero ht hsome]
      refine .bind hloop ht (fun t => hloop.fill _) (fun t => ht.fill _)
        (fun fed rest hchunks => h c fed fun hnodes => hlimit ?_)
        fun fed rest middle t hchunks htree => ih (fun hnodes => hlimit ?_) ?_
      · rw [hchunks]
        exact hnodes.append rest
      · rw [hchunks]
        exact .of_treeLoop hn htree hnodes
      · show node.missing - 1 = missing
        omega

/-- A node comes before its subtrees: if these are decoded like this by the loop in all runs of `n`
    nodes, then in those of one node more the whole tree is. -/
theorem treeRound_behavesLike (hn : (nodeOf element).Linear) (ht : tree.Linear)
    (h : ∀ c chunks, ¬ (nodeOf element).SucceedsTimes n c chunks →
      (treeOf element).BehavesLike tree c chunks)
    (hlimit : ¬ (nodeOf element).SucceedsTimes (n + 1) c chunks) :
    (treeRound element (treeOf element)).BehavesLike (treeRound element tree) c chunks := by
  have hloop : (treeOf element).Linear := Linear.treeLoop hn nodeLimit []
  rw [treeRound_eq, treeRound_eq]
  refine .bind hn hn (fun node => hloop.fill _) (fun node => ht.fill _)
    (fun fed _ _ => .refl _ c fed) fun fed rest middle node hchunks hnode => ?_
  refine fill_behavesLike hn ht h fun hnodes => hlimit ?_
  rw [hchunks]
  exact .succ hnode hnodes

end

end Decoder

/-! ## The size of a node -/

/-- How many bytes a run at the cursor is given with the chunks, by their sizes. -/
def Cursor.given [Buffer β] (c : Cursor β) (chunks : List β) : Nat :=
  Buffer.size c.input + (chunks.map Buffer.size).sum

theorem Cursor.given_append [Buffer β] (c : Cursor β) (fed rest : List β) :
    c.given (fed ++ rest) = c.given fed + (rest.map Buffer.size).sum := by
  rw [given, given, List.map_append, List.sum_append_nat, Nat.add_assoc]

namespace Decoder

variable [Buffer β] [LawfulBuffer β] {c here : Cursor β} {chunks : List β} {n : Nat}

omit [LawfulBuffer β] in
/-- What has arrived when no byte is missing is enough. -/
theorem gathering_given {s : β} {missing : Nat} {gathered fed : List β}
    (hn : n ≤ missing + (Buffer.size s + (fed.map Buffer.size).sum)) :
    (gathering c gathered missing).Obeys (fun _ => True)
      (fun fed ending => match ending with
        | .failed _ _ => True
        | .reached _ _ => n ≤ Buffer.size s + (fed.map Buffer.size).sum) fed := by
  induction missing using Nat.strongRecOn generalizing c fed gathered with
  | _ missing ih =>
      rw [gathering, gather_eq_await]
      refine ⟨trivial, fun chunk => ?_⟩
      have hmore : ((fed ++ [chunk]).map Buffer.size).sum =
          (fed.map Buffer.size).sum + Buffer.size chunk := by
        rw [List.map_append, List.sum_append_nat, List.map_singleton, List.sum_singleton]
      dsimp only
      split
      · trivial
      · split
        · show n ≤ Buffer.size s + ((fed ++ [chunk]).map Buffer.size).sum
          omega
        · exact ih _ (by omega) (by omega)

/-- A demand that has succeeded was given as many bytes. -/
theorem SucceedsAt.ensure_given {input : β} (h : (ensure n).SucceedsAt c chunks here input) :
    n ≤ c.given chunks := by
  rw [(Linear.ensure n).succeedsAt_iff] at h
  by_cases hn : Buffer.hasAtLeast c.input n = true
  · exact Nat.le_trans ((LawfulBuffer.hasAtLeast_iff c.input n).1 hn) (Nat.le_add_right _ _)
  · cases hmode : c.mode with
    | complete =>
        rw [outcome_ensure_complete hn hmode] at h
        cases (Step.after_answer h).2
    | incomplete =>
        rw [outcome_ensure_incomplete hn hmode] at h
        have hmissing : n ≤ n - Buffer.size c.input +
            (Buffer.size c.input + (([] : List β).map Buffer.size).sum) := by
          rw [List.map_nil, List.sum_nil]
          omega
        exact (gathering_given hmissing).after h

variable [SizedBuffer β]

theorem SucceedsAt.getBytes_given {bytes : β} (h : (getBytes n).SucceedsAt c chunks here bytes) :
    Buffer.size here.input + n ≤ c.given chunks := by
  obtain ⟨fed, rest, middle, input, rfl, hensure, htake⟩ :=
    (succeedsAt_bind_iff (Linear.ensure n) fun _ _ _ _ _ => rfl).1 h
  have henough : n ≤ c.given fed := hensure.ensure_given
  rw [(Linear.ensure n).succeedsAt_iff] at hensure
  have hleft : Buffer.size middle.input ≤ c.given fed :=
    (ensure_leaves Leftover.size n c).after hensure
  obtain ⟨-, -, rfl⟩ := (ensure_gathers n c).after hensure
  have htaken := htake _ (fun c failure => .answer (.failed c failure))
    (fun c value => .answer (Ending.reached c value))
  obtain ⟨rfl, hanswer⟩ := Step.after_answer htaken
  cases hanswer
  rw [List.append_nil]
  show Buffer.size (Buffer.drop middle.input n) + n ≤ _
  rw [SizedBuffer.size_drop]
  omega

theorem SucceedsAt.word64be_given {count : UInt64} (h : word64be.SucceedsAt c chunks here count) :
    Buffer.size here.input + 8 ≤ c.given chunks := by
  obtain ⟨bytes, htake, -⟩ := (succeedsAt_map_iff (Linear.getBytes 8) _).1 h
  exact htake.getBytes_given

end Decoder

namespace Composed

variable [Buffer β] [LawfulBuffer β] {access : Access} {element : Decoder β α}

/-- A node that was read has taken its count of eight bytes, and whatever its root has. -/
theorem nodeOf_given [SizedBuffer β] (h : Composed access element) (haccess : access ≠ .rewrite)
    {c here : Cursor β} {chunks : List β} {node : α × UInt64}
    (hnode : (Decoder.nodeOf element).SucceedsAt c chunks here node) :
    Buffer.size here.input + 8 ≤ c.given chunks := by
  have hword : (Decoder.word64be : Decoder β UInt64).Linear := Decoder.Linear.word64be
  obtain ⟨fed, rest, middle, root, rfl, hroot, hcount⟩ :=
    (Decoder.succeedsAt_bind_iff h.linear fun root => hword.map _).1 hnode
  obtain ⟨count, hcount, -⟩ := (Decoder.succeedsAt_map_iff hword _).1 hcount
  have hmiddle : Buffer.size middle.input ≤ c.given fed :=
    (h.leaves haccess Leftover.size c).after (h.linear.succeedsAt_iff.1 hroot)
  have hhere : Buffer.size here.input + 8 ≤ middle.given rest := hcount.word64be_given
  rw [Cursor.given] at hhere
  rw [Cursor.given_append]
  omega

/-- Reading nodes takes eight bytes each. -/
theorem succeedsTimes_given [SizedBuffer β] (h : Composed access element)
    (haccess : access ≠ .rewrite) {n : Nat} {c : Cursor β} {chunks : List β}
    (hnodes : (Decoder.nodeOf element).SucceedsTimes n c chunks) : 8 * n ≤ c.given chunks := by
  induction hnodes with
  | zero c chunks => exact Nat.zero_le _
  | @succ n c middle fed rest node first later ih =>
      have hfirst := h.nodeOf_given haccess first
      rw [Cursor.given_append]
      rw [Cursor.given] at ih
      omega

/-! ## The recursive definition -/

omit [LawfulBuffer β] in
/-- The loop starts with an empty stack, and so as the recursion. -/
theorem treeLoop_behavesLike_treeTo (h : Composed access element) {deeper : Decoder β (Tree α)}
    (hdeeper : deeper.Linear) {limit depth : Nat} (hdepth : limit ≤ depth) {c : Cursor β}
    {chunks : List β} (hlimit : ¬ (Decoder.nodeOf element).SucceedsTimes limit c chunks) :
    (Decoder.treeLoop element limit []).BehavesLike (Decoder.treeTo element deeper depth) c
      chunks := by
  have hstack : limit + ([] : List (OpenNode α)).length ≤ depth := hdepth
  exact Decoder.treeLoop_behavesLike h.nodeOf.linear hdeeper hstack hlimit

omit [LawfulBuffer β] in
/-- The loop solves the equation of the recursion. -/
theorem treeOf_behavesLike_treeRound (h : Composed access element) {c : Cursor β}
    {chunks : List β}
    (hlimit : ¬ (Decoder.nodeOf element).SucceedsTimes Decoder.nodeLimit c chunks) :
    (Decoder.treeOf element).BehavesLike
      (Decoder.treeRound element (Decoder.treeOf element)) c chunks := by
  have hloop : (Decoder.treeOf element).Linear := h.treeOf.linear
  -- the recursion to a depth that no run reaches the end of, and its subtrees
  let subtree : Decoder β (Tree α) :=
    Decoder.treeTo element (Decoder.treeOf element) Decoder.nodeLimit
  have hsubtree : subtree.Linear := Decoder.Linear.treeTo h.nodeOf.linear hloop Decoder.nodeLimit
  have hwhole : (Decoder.treeOf element).BehavesLike (Decoder.treeRound element subtree) c chunks :=
    h.treeLoop_behavesLike_treeTo hloop (Nat.le_succ Decoder.nodeLimit) hlimit
  have hsubtrees : ∀ c chunks,
      ¬ (Decoder.nodeOf element).SucceedsTimes Decoder.nodeLimit c chunks →
      (Decoder.treeOf element).BehavesLike subtree c chunks :=
    fun c chunks hless => h.treeLoop_behavesLike_treeTo hloop (Nat.le_refl _) hless
  have hsame := Decoder.treeRound_behavesLike h.nodeOf.linear hsubtree hsubtrees fun hnodes =>
    hlimit (hnodes.mono (Nat.le_succ Decoder.nodeLimit))
  exact hwhole.trans hsame.symm

omit [LawfulBuffer β] in
/-- The loop does the same as every solution of the equation, and only as these. -/
theorem treeOf_behavesLike_iff (h : Composed access element) {tree : Decoder β (Tree α)}
    (ht : tree.Linear) :
    (∀ c chunks, ¬ (Decoder.nodeOf element).SucceedsTimes Decoder.nodeLimit c chunks →
      tree.BehavesLike (Decoder.treeRound element tree) c chunks) ↔
    ∀ c chunks, ¬ (Decoder.nodeOf element).SucceedsTimes Decoder.nodeLimit c chunks →
      (Decoder.treeOf element).BehavesLike tree c chunks := by
  constructor
  · intro hround
    -- runs of more and more nodes
    have hless (n : Nat) (hn : n ≤ Decoder.nodeLimit) : ∀ c chunks,
        ¬ (Decoder.nodeOf element).SucceedsTimes n c chunks →
        (Decoder.treeOf element).BehavesLike tree c chunks := by
      induction n with
      | zero => exact fun c chunks hnone => (hnone (.zero c chunks)).elim
      | succ n ih =>
          intro c chunks hlimit
          have hbelow : ¬ (Decoder.nodeOf element).SucceedsTimes Decoder.nodeLimit c chunks :=
            fun hnodes => hlimit (hnodes.mono hn)
          have hsubtrees := Decoder.treeRound_behavesLike h.nodeOf.linear ht
            (ih (Nat.le_of_succ_le hn)) hlimit
          exact (h.treeOf_behavesLike_treeRound hbelow).trans
            (hsubtrees.trans (hround c chunks hbelow).symm)
    exact hless Decoder.nodeLimit (Nat.le_refl _)
  · intro hsame c chunks hlimit
    have hsubtrees := Decoder.treeRound_behavesLike h.nodeOf.linear ht hsame fun hnodes =>
      hlimit (hnodes.mono (Nat.le_succ Decoder.nodeLimit))
    exact (hsame c chunks hlimit).symm.trans
      ((h.treeOf_behavesLike_treeRound hlimit).trans hsubtrees)

/-- The loop of trees is the recursive definition. Whatever stands for the trees that lie deeper than
    some depth, the loop waits, fails and succeeds like the recursion, at the same cursors and with
    the same trees, until as many nodes have been read. As an equation, of a tree decoder with itself
    inside, the recursion is solved by the loop, by what does the same as the loop, and by nothing
    else, as far as runs of fewer than `nodeLimit` nodes tell. The loop that is left for a root and for
    a count, and entered again with them, is the same one. Nodes take eight bytes each, by the sizes
    of the buffer and of the chunks, so a run over less than `2 ^ 64` bytes does not come to that
    limit, and a recursion is deep enough that has a level for every eight bytes. -/
theorem tree_by_recursion (h : Composed access element) :
    (∀ (limit depth : Nat) (deeper : Decoder β (Tree α)) (c : Cursor β) (chunks : List β),
      deeper.Linear → limit ≤ depth → ¬ (Decoder.nodeOf element).SucceedsTimes limit c chunks →
      (Decoder.treeLoop element limit []).BehavesLike (Decoder.treeTo element deeper depth) c
        chunks) ∧
    (∀ tree : Decoder β (Tree α), tree.Linear →
      ((∀ c chunks, ¬ (Decoder.nodeOf element).SucceedsTimes Decoder.nodeLimit c chunks →
          tree.BehavesLike (element.bind fun root => (Decoder.listOf tree).map fun subtrees =>
            .node root subtrees) c chunks) ↔
        ∀ c chunks, ¬ (Decoder.nodeOf element).SucceedsTimes Decoder.nodeLimit c chunks →
          (Decoder.treeOf element).BehavesLike tree c chunks)) ∧
    Decoder.treeOf element = Decoder.treeInRounds element ∧
    (access ≠ .rewrite → ∀ [SizedBuffer β] (c : Cursor β) (chunks : List β),
      (∀ n, (Decoder.nodeOf element).SucceedsTimes n c chunks → 8 * n ≤ c.given chunks) ∧
      ∀ (depth : Nat) (deeper : Decoder β (Tree α)), deeper.Linear →
        c.given chunks < 2 ^ 64 → c.given chunks < 8 * depth →
        (Decoder.treeOf element).BehavesLike (Decoder.treeTo element deeper depth) c chunks) := by
  refine ⟨fun limit depth deeper c chunks hdeeper hdepth hlimit =>
      h.treeLoop_behavesLike_treeTo hdeeper hdepth hlimit,
    fun tree htree => h.treeOf_behavesLike_iff htree,
    Decoder.treeOf_eq_treeInRounds h.linear,
    fun haccess _ c chunks => ⟨fun n hnodes => h.succeedsTimes_given haccess hnodes,
      fun depth deeper hdeeper hlimit hdepth => ?_⟩⟩
  have hless {limit : Nat} (hlt : c.given chunks < 8 * limit) :
      ¬ (Decoder.nodeOf element).SucceedsTimes limit c chunks := fun hnodes =>
    Nat.not_le.2 hlt (h.succeedsTimes_given haccess hnodes)
  have hnodeLimit : c.given chunks < 8 * Decoder.nodeLimit := hlimit
  -- both are the recursion to a depth that is enough for the one and the other
  have htree : (Decoder.treeOf element).BehavesLike
      (Decoder.treeTo element deeper (max Decoder.nodeLimit depth)) c chunks :=
    h.treeLoop_behavesLike_treeTo hdeeper (Nat.le_max_left _ _) (hless hnodeLimit)
  have hdeep : (Decoder.treeLoop element depth []).BehavesLike
      (Decoder.treeTo element deeper (max Decoder.nodeLimit depth)) c chunks :=
    h.treeLoop_behavesLike_treeTo hdeeper (Nat.le_max_right _ _) (hless hdepth)
  have hloop : (Decoder.treeLoop element depth []).BehavesLike
      (Decoder.treeTo element deeper depth) c chunks :=
    h.treeLoop_behavesLike_treeTo hdeeper (Nat.le_refl depth) (hless hdepth)
  exact htree.trans (hdeep.symm.trans hloop)

end Composed

open Decoder in
/-- A tree of four nodes in six parts, which end in a count, behind a root and behind a count. -/
theorem nested_tree_by_recursion :
    let tree : Decoder Bytes (Tree UInt8) := treeOf word8
    let c : Cursor Bytes := .start .incomplete [1, 0, 0]
    let chunks : List Bytes :=
      [[0, 0, 0, 0, 0], [2, 2, 0, 0, 0, 0, 0, 0, 0, 0, 3], [0, 0, 0, 0, 0, 0, 0, 1],
        [4, 0, 0, 0, 0], [0, 0, 0, 0, 9]]
    tree.BehavesLike (treeTo word8 (fail "too deep") 5) c chunks ∧
      tree.BehavesLike (word8.bind fun root => (listOf tree).map fun subtrees =>
        .node root subtrees) c chunks ∧
      tree.SucceedsAt c chunks ⟨[9], none, .incomplete, 0⟩
        (.node 1 [.node 2 [], .node 3 [.node 4 []]]) := by
  intro tree c chunks
  have hword : Composed .stream (word8 : Decoder Bytes UInt8) := .map _ (.word 1 .big)
  have htree : tree.Linear := hword.treeOf.linear
  have hfail : (fail "too deep" : Decoder Bytes (Tree UInt8)).Linear := fun _ _ _ _ => rfl
  obtain ⟨-, hequation, -, hbytes⟩ := hword.tree_by_recursion
  obtain ⟨hnodes, hdeep⟩ := hbytes (by decide) c chunks
  have hlimit : ¬ (nodeOf word8).SucceedsTimes nodeLimit c chunks := fun hmany =>
    absurd (hnodes nodeLimit hmany) (by decide)
  refine ⟨hdeep 5 _ hfail (by decide) (by decide),
    (hequation tree htree).2 (fun c chunks _ => .refl tree c chunks) c chunks hlimit, ?_⟩
  rw [htree.succeedsAt_iff]
  cbv

end StreamDecode
