import Bitlens.Lib.Forest

namespace Bitlens.Lib

variable {κ : Type} {parent other : κ → Option κ} {on : κ → Prop} {height : κ → Nat}

/-- `y` is strictly above `x` on some path. -/
def BuiltOn (parent : κ → Option κ) (y x : κ) : Prop :=
  Descends parent y x ∧ y ≠ x

/-- The node is in the list, and behind its last place there are only nodes that are built on it. -/
def Settles (parent : κ → Option κ) (nodes : List κ) (x : κ) : Prop :=
  ∃ front back, nodes = front ++ x :: back ∧ ∀ y ∈ back, BuiltOn parent y x

/-- A place in two lists is in one of them. -/
theorem append_eq_split {front back xs ys : List κ} {y : κ} (split : xs ++ ys = front ++ y :: back) :
    (∃ post, xs = front ++ y :: post ∧ back = post ++ ys) ∨ ∃ pre, front = xs ++ pre ∧ ys = pre ++ y :: back := by
  rcases List.append_eq_append_iff.mp split with ⟨pre, whole, rest⟩ | ⟨post, whole, rest⟩
  · exact Or.inr ⟨pre, whole, rest⟩
  · cases post with
    | nil => exact Or.inr ⟨[], by simpa using whole.symm, rest.symm⟩
    | cons first post =>
      obtain ⟨rfl, same⟩ := List.cons.inj rest
      exact Or.inl ⟨post, whole, same⟩

/-- The work on a tree of which one path after the other was the main one: what is done and what is
queued. Each node of the main path settles, and each node on the path of a queued one has settled
when its turn comes. -/
structure Scheduled (on : κ → Prop) (parent : κ → Option κ) (top : κ) (done queue : List κ) : Prop where
  members : ∀ x ∈ done ++ queue, on x
  main : ∀ x, Descends parent top x → Settles parent (done ++ queue) x
  queued : ∀ front y back, queue = front ++ y :: back → ∀ x, BuiltOn parent y x → Settles parent (done ++ front) x

variable {nodes more done queue entries : List κ} {x y z m top new : κ}

theorem GradedOn.builtOn_trans (graded : GradedOn on parent height) (member : on z) (path : Descends parent z y)
    (strict : BuiltOn parent y x) : BuiltOn parent z x := by
  refine ⟨path.trans strict.1, fun same => strict.2 ?_⟩
  obtain ⟨onY, low⟩ := graded.descends member path
  have high := (graded.descends onY strict.1).2
  rw [same] at low
  exact (graded.eq_of_descends onY strict.1 (by omega)).symm

/-- The new path is the old one with the nodes above the last common one exchanged. -/
theorem LastCommon.exchange {old : κ} (common : LastCommon parent old new m) (graded : GradedOn on parent height)
    (member : on old) : Descends parent new z ↔
      Descends parent old z ∧ ¬ Above parent old m z ∨ Above parent new m z := by
  have onM := (graded.descends member common.left).1
  have kept : Descends parent m z → Descends parent old z ∧ ¬ Above parent old m z := by
    intro below
    refine ⟨common.left.trans below, fun above => above.2.2 ?_⟩
    obtain ⟨onZ, low⟩ := graded.descends onM below
    have high := (graded.descends onZ above.2.1).2
    exact graded.eq_of_descends onM below (by omega)
  constructor
  · intro path
    rcases path.comparable common.right with down | up
    · by_cases here : z = m
      · exact Or.inl (kept (here ▸ .refl _))
      · exact Or.inr ⟨path, down, here⟩
    · exact Or.inl (kept up)
  · rintro (⟨path, low⟩ | above)
    · rcases path.comparable common.left with down | up
      · have here : z = m := not_not.mp fun apart => low ⟨path, down, apart⟩
        exact here ▸ common.right
      · exact common.right.trans up
    · exact above.1

theorem Settles.append (settles : Settles parent nodes x) (above : ∀ y ∈ more, BuiltOn parent y x) :
    Settles parent (nodes ++ more) x := by
  obtain ⟨front, back, rfl, built⟩ := settles
  refine ⟨front, back ++ more, by simp, fun y member => ?_⟩
  exact (List.mem_append.mp member).elim (built y) (above y)

/-- In a list of nodes each of which is built on those before it, every node settles. -/
theorem settles_of_pairwise (path : more.Pairwise fun x y => BuiltOn parent y x) (member : x ∈ more) :
    Settles parent (nodes ++ more) x := by
  obtain ⟨front, back, rfl⟩ := List.append_of_mem member
  refine ⟨nodes ++ front, back, by simp, fun y later => ?_⟩
  exact (List.pairwise_cons.mp (List.pairwise_append.mp path).2.1).1 y later

theorem Settles.congr (agree : ∀ y ∈ nodes, ∀ x, Descends other y x ↔ Descends parent y x)
    (settles : Settles parent nodes x) : Settles other nodes x := by
  obtain ⟨front, back, rfl, built⟩ := settles
  refine ⟨front, back, rfl, fun y member => ⟨?_, (built y member).2⟩⟩
  exact (agree y (by simp [member]) x).mpr (built y member).1

/-- A path that is listed parents first, each node once, is in order. -/
theorem pairwise_of_parentsFirst {base : κ → Prop} (order : ParentsFirst parent base nodes) (nodup : nodes.Nodup)
    (path : ∀ z ∈ nodes, Descends parent new z) (outside : ∀ b, base b → ∀ z ∈ nodes, ¬ Descends parent b z) :
    nodes.Pairwise fun x y => BuiltOn parent y x := by
  induction nodes generalizing base with
  | nil => exact .nil
  | cons x nodes ih =>
    obtain ⟨fresh, rest⟩ := List.nodup_cons.mp nodup
    have later : ∀ y ∈ nodes, y ≠ x := fun y member same => fresh (same ▸ member)
    have apart : ∀ y ∈ nodes, ¬ Descends parent x y := by
      intro y member below
      rcases descends_iff_eq_or.mp below with same | ⟨next, edge, onward⟩
      · exact later y member same
      · exact outside next (order.1 next edge) y (List.mem_cons_of_mem _ member) onward
    refine List.pairwise_cons.mpr ⟨fun y member => ⟨?_, later y member⟩, ih order.2 rest ?_ ?_⟩
    · have onPath := path y (List.mem_cons_of_mem _ member)
      exact (onPath.comparable (path x List.mem_cons_self)).resolve_right (apart y member)
    · exact fun z member => path z (List.mem_cons_of_mem _ member)
    · rintro b (known | rfl) z member
      · exact outside b known z (List.mem_cons_of_mem _ member)
      · exact apart z member

namespace Scheduled

theorem start (path : done.Pairwise fun x y => BuiltOn parent y x) (members : ∀ x ∈ done, on x)
    (covers : ∀ x, Descends parent top x → x ∈ done) : Scheduled on parent top done [] where
  members := by simpa using members
  main x below := by simpa using @settles_of_pairwise κ parent [] done x path (covers x below)
  queued front y back same := by simp at same

/-- The next node is worked on. -/
theorem work (scheduled : Scheduled on parent top done (x :: queue)) : Scheduled on parent top (done ++ [x]) queue := by
  obtain ⟨members, main, queued⟩ := scheduled
  refine ⟨by simpa using members, by simpa using main, fun front y back split z built => ?_⟩
  have settles := queued (x :: front) y back (by rw [split, List.cons_append]) z built
  simpa using settles

/-- What the next node is built on has settled. -/
theorem next_settles (scheduled : Scheduled on parent top done (y :: queue)) (built : BuiltOn parent y x) :
    Settles parent done x := by
  simpa using scheduled.queued [] y queue rfl x built

/-- The tree grows. -/
theorem congr (scheduled : Scheduled on parent top done queue) (onTop : on top)
    (agree : ∀ y, on y → ∀ x, Descends other y x ↔ Descends parent y x) {wider : κ → Prop}
    (grow : ∀ x, on x → wider x) : Scheduled wider other top done queue := by
  obtain ⟨members, main, queued⟩ := scheduled
  refine ⟨fun x member => grow x (members x member), fun x below => ?_, fun front y back split x built => ?_⟩
  · exact (main x ((agree top onTop x).mp below)).congr fun y member => agree y (members y member)
  · subst split
    have onY := members y (by simp)
    refine (queued front y back rfl x ⟨(agree y onY x).mp built.1, built.2⟩).congr fun z member => ?_
    refine agree z (members z ?_)
    rcases List.mem_append.mp member with early | late
    · exact List.mem_append_left _ early
    · exact List.mem_append_right _ (List.mem_append_left _ late)

/-- Another path becomes the main one, and its nodes above the last common one are queued. -/
theorem switch (scheduled : Scheduled on parent top done queue) (graded : GradedOn on parent height) (onNew : on new)
    (common : LastCommon parent top new m) (blocks : ∀ z, z ∈ entries ↔ Above parent new m z)
    (order : ParentsFirst parent (· = m) entries) (nodup : entries.Nodup) :
    Scheduled on parent new done (queue ++ entries) := by
  obtain ⟨members, main, queued⟩ := scheduled
  have onM := (graded.descends onNew common.right).1
  have path : entries.Pairwise fun x y => BuiltOn parent y x := by
    refine pairwise_of_parentsFirst order nodup (fun z member => ((blocks z).mp member).1) ?_
    rintro b rfl z member below
    obtain ⟨onPath, onward, apart⟩ := (blocks z).mp member
    have onZ := (graded.descends onNew onPath).1
    have low := (graded.descends onZ onward).2
    have high := (graded.descends onM below).2
    exact apart (graded.eq_of_descends onM below (by omega))
  -- a node of the new path is queued now, or it was on the old path
  have placed : ∀ x, Descends parent new x → x ∈ entries ∨
      Settles parent (done ++ queue) x ∧ ∀ y ∈ entries, BuiltOn parent y x := by
    intro x below
    by_cases listed : x ∈ entries
    · exact Or.inl listed
    have onOld : Descends parent m x := by
      rcases below.comparable common.right with down | up
      · have here : x = m := not_not.mp fun apart => listed ((blocks x).mpr ⟨below, down, apart⟩)
        exact here ▸ .refl _
      · exact up
    refine Or.inr ⟨main x (common.left.trans onOld), fun y member => ?_⟩
    obtain ⟨onPath, onward, apart⟩ := (blocks y).mp member
    have onY := (graded.descends onNew onPath).1
    refine ⟨onward.trans onOld, fun same => listed (same ▸ member)⟩
  refine ⟨fun x member => ?_, fun x below => ?_, fun front y back split x built => ?_⟩
  · rw [← List.append_assoc] at member
    refine (List.mem_append.mp member).elim (members x) fun listed => ?_
    exact (graded.descends onNew ((blocks x).mp listed).1).1
  · rw [← List.append_assoc]
    rcases placed x below with listed | ⟨settles, above⟩
    · exact settles_of_pairwise path listed
    · exact settles.append above
  · rcases append_eq_split split with ⟨post, rfl, _⟩ | ⟨pre, rfl, rest⟩
    · exact queued front y post rfl x built
    -- `y` is one of the new nodes, and `x` comes before it
    have above := (blocks y).mp (by simp [rest])
    rw [← List.append_assoc]
    rw [rest] at path
    rcases placed x (above.1.trans built.1) with listed | ⟨settles, onTop⟩
    · rw [rest] at listed
      obtain ⟨inOrder, behind, _⟩ := List.pairwise_append.mp path
      refine settles_of_pairwise inOrder ((List.mem_append.mp listed).resolve_right fun later => ?_)
      rcases List.mem_cons.mp later with same | later
      · exact built.2 same.symm
      · have cycle := (List.pairwise_cons.mp behind).1 x later
        have onY := (graded.descends onNew above.1).1
        exact (graded.builtOn_trans onY built.1 cycle).2 rfl
    · exact settles.append fun z member => onTop z (by simp [rest, member])

end Scheduled

end Bitlens.Lib
