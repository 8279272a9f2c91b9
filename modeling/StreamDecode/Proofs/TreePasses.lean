import StreamDecode.Proofs.Passes

set_option autoImplicit false

/-! # The loop of trees, pass by pass

The loop of a tree goes through three phases (`Decoder.treePasses`): it reads the root of a node and
puts the node on the stack, reads the count that follows, and closes the node on top as long as that
misses nothing, adding it to the one below. Each of these takes it for granted that there is a node
on top, or one below that still expects a subtree; where there is none, the pass breaks. There is no
limit on the number of nodes.

`TreePass` says once what a pass can do. It follows that the loop is always in order
(`TreeState.Sound`), so it never breaks; that all nodes that were read are on the stack, each with
the eight bytes of its count (`TreeState.Accounts`); and that it finishes, however large the counts
are, because each node that is read takes eight bytes and each that is closed leaves the stack
(`Composed.tree_finishes`). -/

namespace StreamDecode

variable {α : Type}

/-! ## The number of nodes -/

namespace Tree

mutual
/-- The number of nodes of a tree. -/
def nodes : Tree α → Nat
  | node _ subtrees => nodesOf subtrees + 1

/-- The number of nodes of some trees. -/
def nodesOf : List (Tree α) → Nat
  | [] => 0
  | t :: trees => nodes t + nodesOf trees
end

theorem nodesOf_append (first second : List (Tree α)) :
    nodesOf (first ++ second) = nodesOf first + nodesOf second := by
  induction first with
  | nil => simp [nodesOf]
  | cons t first ih => simp [nodesOf, ih, Nat.add_assoc]

theorem nodesOf_reverse (trees : List (Tree α)) : nodesOf trees.reverse = nodesOf trees := by
  induction trees with
  | nil => rfl
  | cons t trees ih => simp [nodesOf_append, nodesOf, ih, Nat.add_comm]

theorem nodes_extentFrom (level : Nat) (found : Extent) (forests : List (List (Tree α))) :
    (extentFrom level found forests).nodes = found.nodes + (forests.map nodesOf).sum := by
  fun_induction extentFrom level found forests with
  | case1 level found => rfl
  | case2 level found forests ih => simpa [nodesOf] using ih
  | case3 level found root subtrees trees forests ih =>
      rw [ih]
      simp only [List.map_cons, List.sum_cons, nodesOf, nodes]
      omega

/-- The walk over a tree visits each of its nodes once. -/
theorem extent_nodes (t : Tree α) : t.extent.nodes = t.nodes := by
  rw [extent, nodes_extentFrom]
  simp [nodesOf]

end Tree

namespace OpenNode

/-- The number of nodes that an open node has so far, itself included. -/
def nodes (node : OpenNode α) : Nat := Tree.nodesOf node.subtrees + 1

theorem nodes_toTree (node : OpenNode α) : node.toTree.nodes = node.nodes := by
  rw [toTree, Tree.nodes, Tree.nodesOf_reverse, nodes]

theorem nodes_add (node : OpenNode α) (subtree : Tree α) :
    (node.add subtree).nodes = node.nodes + subtree.nodes := by
  simp only [add, nodes, Tree.nodesOf]
  omega

end OpenNode

/-! ## The loop -/

/-- What a loop of trees does next. -/
inductive TreePhase where
  | root
  | count
  | close
deriving DecidableEq

/-- Where a loop of trees stands, with the open nodes, innermost first. -/
structure TreeState (α : Type) where
  phase : TreePhase
  opened : List (OpenNode α)
  cursor : Cursor Bytes

/-- Before the first node. -/
def TreeState.start (c : Cursor Bytes) : TreeState α := ⟨.root, [], c⟩

namespace Decoder

/-- Read the root of the next node. -/
def readRoot (element : Decoder Bytes α) (opened : List (OpenNode α)) (c : Cursor Bytes) :
    Step Bytes (Pass (TreeState α) (Ending Bytes (Tree α))) :=
  (element.outcome c).settle (fun c failure => .answer (.leave (.failed c failure)))
    (fun c root => .answer (.again ⟨.count, ⟨root, [], 0⟩ :: opened, c⟩))

/-- Read how many subtrees the node on top has. -/
def readCount (opened : List (OpenNode α)) (c : Cursor Bytes) :
    Step Bytes (Pass (TreeState α) (Ending Bytes (Tree α))) :=
  (word64be.outcome c).settle (fun c failure => .answer (.leave (.failed c failure)))
    (fun c count =>
      match opened with
      | [] => .answer .broken
      | node :: others =>
          .answer (.again ⟨.close, { node with missing := count.toNat } :: others, c⟩))

/-- Close the node on top if it misses no subtree. -/
def closeTop (opened : List (OpenNode α)) (c : Cursor Bytes) :
    Pass (TreeState α) (Ending Bytes (Tree α)) :=
  match opened with
  | [] => .broken
  | node :: below =>
      if node.missing ≠ 0 then .again ⟨.root, node :: below, c⟩
      else match below with
        | [] => .leave (.reached c node.toTree)
        | outer :: others =>
            if outer.missing = 0 then .broken
            else .again ⟨.close, outer.add node.toTree :: others, c⟩

section

variable {node outer : OpenNode α} {below others : List (OpenNode α)} {c : Cursor Bytes}

theorem closeTop_of_missing_ne_zero (h : node.missing ≠ 0) :
    closeTop (node :: below) c = .again ⟨.root, node :: below, c⟩ := if_pos h

theorem closeTop_whole (h : node.missing = 0) :
    closeTop [node] c = .leave (.reached c node.toTree) := if_neg (not_not_intro h)

theorem closeTop_noneExpected (h : node.missing = 0) (houter : outer.missing = 0) :
    closeTop (node :: outer :: others) c = .broken :=
  (if_neg (not_not_intro h)).trans (if_pos houter)

theorem closeTop_close (h : node.missing = 0) (houter : outer.missing ≠ 0) :
    closeTop (node :: outer :: others) c = .again ⟨.close, outer.add node.toTree :: others, c⟩ :=
  (if_neg (not_not_intro h)).trans (if_neg houter)

end

/-- The loop of a tree. -/
def treePasses (element : Decoder Bytes α) :
    Loop Bytes (TreeState α) (Ending Bytes (Tree α)) where
  elements s := if s.phase = .root then 1 else 0
  pass s :=
    match s.phase with
    | .root => readRoot element s.opened s.cursor
    | .count => readCount s.opened s.cursor
    | .close => .answer (closeTop s.opened s.cursor)

end Decoder

/-! ## What a pass can do -/

/-- The ways in which a pass of the loop of trees can end. -/
inductive TreePass (element : Decoder Bytes α) :
    TreeState α → Pass (TreeState α) (Ending Bytes (Tree α)) → Prop where
  | rootFails {opened : List (OpenNode α)} {c here : Cursor Bytes} {failure : Failure}
      (fails : element.outcome c = .answer (.failed here failure)) :
      TreePass element ⟨.root, opened, c⟩ (.leave (.failed here failure))
  | root {opened : List (OpenNode α)} {c here : Cursor Bytes} {root : α}
      (reached : element.outcome c = .answer (.reached here root)) :
      TreePass element ⟨.root, opened, c⟩ (.again ⟨.count, ⟨root, [], 0⟩ :: opened, here⟩)
  | countFails {opened : List (OpenNode α)} {c here : Cursor Bytes} {failure : Failure}
      (fails : Decoder.word64be.outcome c = .answer (.failed here failure)) :
      TreePass element ⟨.count, opened, c⟩ (.leave (.failed here failure))
  | count {node : OpenNode α} {below : List (OpenNode α)} {c here : Cursor Bytes} {count : UInt64}
      (reached : Decoder.word64be.outcome c = .answer (.reached here count)) :
      TreePass element ⟨.count, node :: below, c⟩
        (.again ⟨.close, { node with missing := count.toNat } :: below, here⟩)
  | closed {node : OpenNode α} {below : List (OpenNode α)} {c : Cursor Bytes}
      (expects : node.missing ≠ 0) :
      TreePass element ⟨.close, node :: below, c⟩ (.again ⟨.root, node :: below, c⟩)
  | close {node outer : OpenNode α} {others : List (OpenNode α)} {c : Cursor Bytes}
      (complete : node.missing = 0) (expects : outer.missing ≠ 0) :
      TreePass element ⟨.close, node :: outer :: others, c⟩
        (.again ⟨.close, outer.add node.toTree :: others, c⟩)
  | whole {node : OpenNode α} {c : Cursor Bytes} (complete : node.missing = 0) :
      TreePass element ⟨.close, [node], c⟩ (.leave (.reached c node.toTree))
  | noTop {phase : TreePhase} {c : Cursor Bytes} (reads : phase ≠ .root) :
      TreePass element ⟨phase, [], c⟩ .broken
  | noneExpected {node outer : OpenNode α} {others : List (OpenNode α)} {c : Cursor Bytes}
      (complete : outer.missing = 0) : TreePass element ⟨.close, node :: outer :: others, c⟩ .broken

theorem Decoder.treePass {element : Decoder Bytes α} {s : TreeState α}
    {pass : Pass (TreeState α) (Ending Bytes (Tree α))}
    (h : (treePasses element).pass s = .answer pass) : TreePass element s pass := by
  obtain ⟨phase, opened, c⟩ := s
  cases phase with
  | root =>
      have hroot : readRoot element opened c = .answer pass := h
      rcases Step.settle_eq_answer hroot with
        ⟨here, failure, hfails, hpass⟩ | ⟨here, root, hreached, hpass⟩
      · cases hpass
        exact .rootFails hfails
      · cases hpass
        exact .root hreached
  | count =>
      have hcount : readCount opened c = .answer pass := h
      rcases Step.settle_eq_answer hcount with
        ⟨here, failure, hfails, hpass⟩ | ⟨here, count, hreached, hpass⟩
      · cases hpass
        exact .countFails hfails
      · cases opened with
        | nil =>
            cases hpass
            exact .noTop (by decide)
        | cons node below =>
            cases hpass
            exact .count hreached
  | close =>
      have hclose : closeTop opened c = pass := Step.answer.inj h
      subst hclose
      cases opened with
      | nil => exact .noTop (by decide)
      | cons node below =>
          by_cases hnode : node.missing = 0
          · cases below with
            | nil =>
                rw [closeTop_whole hnode]
                exact .whole hnode
            | cons outer others =>
                by_cases houter : outer.missing = 0
                · rw [closeTop_noneExpected hnode houter]
                  exact .noneExpected houter
                · rw [closeTop_close hnode houter]
                  exact .close hnode houter
          · rw [closeTop_of_missing_ne_zero hnode]
            exact .closed hnode

/-! ## The stack is in order -/

/-- The stack has a node on top whenever the loop is about to read it, and each node below the top
    expects a subtree. Between two nodes, so does the one on top. -/
structure TreeState.Sound (s : TreeState α) : Prop where
  has_top : s.phase ≠ .root → s.opened ≠ []
  below_expect : ∀ node ∈ s.opened.tail, node.missing ≠ 0
  all_expect : s.phase = .root → ∀ node ∈ s.opened, node.missing ≠ 0

namespace TreePass

variable {element : Decoder Bytes α} {s t : TreeState α}

theorem sound (h : TreePass element s (.again t)) (hs : s.Sound) : t.Sound := by
  cases h with
  | root reached => exact ⟨fun _ => List.cons_ne_nil _ _, hs.all_expect rfl, nofun⟩
  | count reached => exact ⟨fun _ => List.cons_ne_nil _ _, hs.below_expect, nofun⟩
  | closed expects =>
      exact ⟨nofun, hs.below_expect, fun _ => List.forall_mem_cons.2 ⟨expects, hs.below_expect⟩⟩
  | close complete expects =>
      exact ⟨fun _ => List.cons_ne_nil _ _, (List.forall_mem_cons.1 hs.below_expect).2, nofun⟩

theorem not_broken (hs : s.Sound) : ¬ TreePass element s .broken := by
  intro h
  cases h with
  | noTop reads => exact hs.has_top reads rfl
  | noneExpected complete => exact hs.below_expect _ List.mem_cons_self complete

end TreePass

/-- Wherever the loop of a tree gets, its stack is in order, and the next pass does not break. -/
theorem Decoder.sound_of_reaches {element : Decoder Bytes α} {c : Cursor Bytes} {runs : Nat}
    {s : TreeState α} (h : (treePasses element).Reaches (.start c) runs s) :
    s.Sound ∧ (treePasses element).pass s ≠ .answer .broken := by
  have hstart : (TreeState.start c : TreeState α).Sound :=
    ⟨fun hphase => (hphase rfl).elim, nofun, nofun⟩
  have hs : s.Sound := h.preserves hstart fun s t hs hnext => (treePass hnext).sound hs
  exact ⟨hs, fun hbroken => TreePass.not_broken hs (treePass hbroken)⟩

/-! ## Each node has taken eight bytes -/

/-- How many bytes the count of the node on top has that is still to be read. -/
def TreePhase.unread : TreePhase → Nat
  | count => 8
  | _ => 0

/-- Of `size` bytes each node that was read has taken the eight of its count, unless that is still
    to be read. -/
structure TreeState.Accounts (size : Nat) (s : TreeState α) : Prop where
  complete : s.cursor.mode = .complete
  bytes : 8 * (s.opened.map OpenNode.nodes).sum + s.cursor.input.length ≤ size + s.phase.unread

namespace Composed

variable {access : Access} {element : Decoder Bytes α}

theorem treePass_accounts (h : Composed access element) (haccess : access ≠ .rewrite) {size : Nat}
    {s t : TreeState α} (hpass : TreePass element s (.again t)) (hs : s.Accounts size) :
    t.Accounts size := by
  obtain ⟨hmode, hbytes⟩ := hs
  have hword : Composed .stream (Decoder.word64be : Decoder Bytes UInt64) := .word64be
  cases hpass with
  | @root opened c here root reached =>
      obtain ⟨_, hanswer, hreached⟩ := h.answers haccess hmode
      rw [reached, Step.answer.injEq] at hanswer
      obtain ⟨hmode', hlength⟩ := hreached _ _ hanswer.symm
      refine ⟨hmode', ?_⟩
      have hnode : (⟨root, [], 0⟩ : OpenNode α).nodes = 1 := rfl
      simp only [TreePhase.unread, List.map_cons, List.sum_cons, hnode] at hbytes hlength ⊢
      omega
  | @count node below c here count reached =>
      obtain ⟨_, hanswer, hreached⟩ := hword.answers (by decide) hmode
      rw [reached, Step.answer.injEq] at hanswer
      refine ⟨(hreached _ _ hanswer.symm).1, ?_⟩
      have hlength := Decoder.length_word64be_le reached
      have hnode : ({ node with missing := count.toNat } : OpenNode α).nodes = node.nodes := rfl
      simp only [TreePhase.unread, List.map_cons, List.sum_cons, hnode] at hbytes ⊢
      omega
  | closed expects => exact ⟨hmode, hbytes⟩
  | close complete expects =>
      refine ⟨hmode, ?_⟩
      simp only [TreePhase.unread, List.map_cons, List.sum_cons, OpenNode.nodes_add,
        OpenNode.nodes_toTree] at hbytes ⊢
      omega

/-- A tree that was decoded from `size` bytes has at most one node for every eight of them. -/
theorem tree_nodes (h : Composed access element) (haccess : access ≠ .rewrite)
    {c here : Cursor Bytes} (hmode : c.mode = .complete) {runs : Nat} {t : Tree α}
    (hfinishes : (Decoder.treePasses element).Finishes (.start c) runs (.reached here t)) :
    t.extent.nodes ≤ c.input.length / 8 := by
  have hstart : (TreeState.start c : TreeState α).Accounts c.input.length :=
    ⟨hmode, Nat.le_of_eq (Nat.zero_add _)⟩
  obtain ⟨last, hlast, hleave⟩ := hfinishes.leaves hstart fun s t hs hnext =>
    h.treePass_accounts haccess (Decoder.treePass hnext) hs
  cases Decoder.treePass hleave with
  | @whole node _ complete =>
      have hbytes := hlast.bytes
      simp only [TreePhase.unread, List.map_cons, List.map_nil, List.sum_cons, List.sum_nil]
        at hbytes
      rw [Tree.extent_nodes, OpenNode.nodes_toTree]
      omega

end Composed

/-! ## The loop finishes -/

namespace Decoder

variable {element : Decoder Bytes α}

/-- A pass that closes a node runs no element. -/
theorem closeTop_finishes {opened : List (OpenNode α)} {c : Cursor Bytes} {t : TreeState α}
    {runs : Nat} {ending : Ending Bytes (Tree α)} (hnext : closeTop opened c = .again t)
    (hlater : (treePasses element).Finishes t runs ending) :
    (treePasses element).Finishes ⟨.close, opened, c⟩ runs ending := by
  rw [← Nat.zero_add runs]
  exact .again (congrArg Step.answer hnext) hlater

/-- Closing nodes pass by pass is closing them all at once. -/
theorem closing_finishes (element : Decoder Bytes α) (node : OpenNode α) {stack : List (OpenNode α)}
    (c : Cursor Bytes) (hstack : ∀ node ∈ stack, node.missing ≠ 0) :
    (∀ t, node.close stack = .inl t →
      (treePasses element).Finishes ⟨.close, node :: stack, c⟩ 0 (.reached c t)) ∧
    ∀ left, node.close stack = .inr left → (∀ node ∈ left, node.missing ≠ 0) ∧
      ∀ runs ending, (treePasses element).Finishes ⟨.root, left, c⟩ runs ending →
        (treePasses element).Finishes ⟨.close, node :: stack, c⟩ runs ending := by
  induction stack generalizing node with
  | nil =>
      by_cases hnode : node.missing = 0
      · rw [OpenNode.close, if_pos hnode]
        constructor
        · rintro _ ⟨⟩
          exact .leave (congrArg Step.answer (closeTop_whole hnode))
        · rintro _ ⟨⟩
      · rw [OpenNode.close_of_missing_ne_zero hnode]
        constructor
        · rintro _ ⟨⟩
        · rintro _ ⟨⟩
          exact ⟨List.forall_mem_cons.2 ⟨hnode, hstack⟩,
            fun runs ending => closeTop_finishes (closeTop_of_missing_ne_zero hnode)⟩
  | cons outer others ih =>
      obtain ⟨houter, hothers⟩ := List.forall_mem_cons.1 hstack
      by_cases hnode : node.missing = 0
      · rw [OpenNode.close, if_pos hnode]
        have hnext : closeTop (node :: outer :: others) c =
            .again ⟨.close, outer.add node.toTree :: others, c⟩ := closeTop_close hnode houter
        obtain ⟨hwhole, hleft⟩ := ih (outer.add node.toTree) hothers
        refine ⟨fun t ht => closeTop_finishes hnext (hwhole t ht), fun left hclose => ?_⟩
        obtain ⟨hexpect, hlater⟩ := hleft left hclose
        exact ⟨hexpect, fun runs ending h => closeTop_finishes hnext (hlater runs ending h)⟩
      · rw [OpenNode.close_of_missing_ne_zero hnode]
        constructor
        · rintro _ ⟨⟩
        · rintro _ ⟨⟩
          exact ⟨List.forall_mem_cons.2 ⟨hnode, hstack⟩,
            fun runs ending => closeTop_finishes (closeTop_of_missing_ne_zero hnode)⟩

/-- From a root on, the loop runs one element more than from the count behind it. -/
theorem root_finishes {stack : List (OpenNode α)} {c middle : Cursor Bytes} {root : α} {runs : Nat}
    {ending : Ending Bytes (Tree α)} (hroot : element.outcome c = .answer (.reached middle root))
    (hlater : (treePasses element).Finishes ⟨.count, ⟨root, [], 0⟩ :: stack, middle⟩ runs ending) :
    (treePasses element).Finishes ⟨.root, stack, c⟩ (1 + runs) ending := by
  have hpass : (treePasses element).pass ⟨.root, stack, c⟩ =
      .answer (.again ⟨.count, ⟨root, [], 0⟩ :: stack, middle⟩) :=
    Step.settle_of_eq_answer hroot _ _
  exact .again hpass hlater

/-- From a count on, the loop goes on with closing. -/
theorem count_finishes {node : OpenNode α} {stack : List (OpenNode α)} {c here : Cursor Bytes}
    {count : UInt64} {runs : Nat} {ending : Ending Bytes (Tree α)}
    (hcount : word64be.outcome c = .answer (.reached here count))
    (hlater : (treePasses element).Finishes
      ⟨.close, { node with missing := count.toNat } :: stack, here⟩ runs ending) :
    (treePasses element).Finishes ⟨.count, node :: stack, c⟩ runs ending := by
  have hpass : (treePasses element).pass ⟨.count, node :: stack, c⟩ =
      .answer (.again ⟨.close, { node with missing := count.toNat } :: stack, here⟩) :=
    Step.settle_of_eq_answer hcount _ _
  rw [← Nat.zero_add runs]
  exact .again hpass hlater

theorem outcome_treeLoop_succ (he : element.Linear) (limit : Nat) (stack : List (OpenNode α))
    (c : Cursor Bytes) :
    (treeLoop element (limit + 1) stack).outcome c =
      (element.outcome c).settle (fun c failure => .answer (.failed c failure)) fun c root =>
        (word64be.outcome c).settle (fun c failure => .answer (.failed c failure)) fun c count =>
          (treeRest element limit stack (root, count)).outcome c := by
  have hword : (word64be : Decoder Bytes UInt64).Linear := Linear.word64be
  rw [treeLoop_succ (he.bind fun root => hword.map fun count => (root, count))]
  refine (he _ c _ _).trans ?_
  refine Step.settle_congr _ (fun _ _ => rfl) fun c root => ?_
  exact hword _ c (fun c failure => .answer (.failed c failure)) fun c count =>
    (treeRest element limit stack (root, count)).outcome c

end Decoder

namespace Composed

variable {access : Access} {element : Decoder Bytes α} {limit : Nat} {stack : List (OpenNode α)}
  {c : Cursor Bytes}

/-- What is left to do once a node was read finishes as the rest of the limited loop, if the loop
    does with the nodes that stay open. -/
theorem close_finishes {root : α} {count : UInt64} {bound : Nat}
    (hstack : ∀ node ∈ stack, node.missing ≠ 0)
    (hloop : ∀ left : List (OpenNode α), (∀ node ∈ left, node.missing ≠ 0) →
      ∃ runs ending, runs ≤ bound ∧
        (Decoder.treePasses element).Finishes ⟨.root, left, c⟩ runs ending ∧
        (Decoder.treeLoop element limit left).outcome c = .answer ending) :
    ∃ runs ending, runs ≤ bound ∧
      (Decoder.treePasses element).Finishes ⟨.close, ⟨root, [], count.toNat⟩ :: stack, c⟩ runs
        ending ∧
      (Decoder.treeRest element limit stack (root, count)).outcome c = .answer ending := by
  obtain ⟨hwhole, hleft⟩ :=
    Decoder.closing_finishes element ⟨root, [], count.toNat⟩ c hstack
  unfold Decoder.treeRest
  cases hclose : OpenNode.close ⟨root, [], count.toNat⟩ stack with
  | inl t => exact ⟨0, _, Nat.zero_le _, hwhole t hclose, rfl⟩
  | inr left =>
      obtain ⟨hexpect, hlater⟩ := hleft left hclose
      obtain ⟨runs, ending, hruns, hfinishes, houtcome⟩ := hloop left hexpect
      exact ⟨runs, ending, hruns, hlater runs ending hfinishes, houtcome⟩

/-- The loop of a tree finishes, whatever counts it reads, after one element for every eight bytes
    and another one at the latest; and it does so as the loop that is limited to a number of nodes,
    if the bytes are not enough for as many. -/
theorem tree_finishes (h : Composed access element) (haccess : access ≠ .rewrite)
    (hmode : c.mode = .complete) (hstack : ∀ node ∈ stack, node.missing ≠ 0)
    (hlimit : c.input.length < 8 * limit) :
    ∃ runs ending, runs ≤ c.input.length / 8 + 1 ∧
      (Decoder.treePasses element).Finishes ⟨.root, stack, c⟩ runs ending ∧
      (Decoder.treeLoop element limit stack).outcome c = .answer ending := by
  -- each round of the limited loop is a pass for the root, one for the count and some that close
  induction limit generalizing stack c with
  | zero => exact (Nat.not_lt_zero _ hlimit).elim
  | succ limit ih =>
      rw [Decoder.outcome_treeLoop_succ h.linear]
      obtain ⟨first, hroot, hmiddle⟩ := h.answers haccess hmode
      rw [Step.settle_of_eq_answer hroot]
      cases first with
      | failed here failure =>
          have hpass : (Decoder.treePasses element).pass ⟨.root, stack, c⟩ =
              .answer (.leave (.failed here failure)) := Step.settle_of_eq_answer hroot _ _
          exact ⟨1, _, Nat.le_add_left 1 _, .leave hpass, rfl⟩
      | reached middle root =>
          obtain ⟨hmode', hlength⟩ := hmiddle middle root rfl
          have hword : Composed .stream (Decoder.word64be : Decoder Bytes UInt64) := .word64be
          obtain ⟨second, hcount, hhere⟩ := hword.answers (by decide) hmode'
          rw [Ending.elim, Step.settle_of_eq_answer hcount]
          cases second with
          | failed here failure =>
              have hpass : (Decoder.treePasses element).pass
                  ⟨.count, ⟨root, [], 0⟩ :: stack, middle⟩ =
                  .answer (.leave (.failed here failure)) := Step.settle_of_eq_answer hcount _ _
              exact ⟨1, _, Nat.le_add_left 1 _, Decoder.root_finishes hroot (.leave hpass), rfl⟩
          | reached here count =>
              have htaken := Decoder.length_word64be_le hcount
              obtain ⟨runs, ending, hruns, hfinishes, houtcome⟩ := close_finishes hstack
                fun left hexpect => ih (hhere here count rfl).1 hexpect (by omega)
              exact ⟨1 + runs, ending, by omega,
                Decoder.root_finishes hroot (Decoder.count_finishes hcount hfinishes), houtcome⟩

end Composed

end StreamDecode
