import Bitlens.GrownChain

namespace Bitlens
open Lib

namespace Chain

variable {p : Profile} {c : Chain}

/-- The loop of `calculate_downloaded_blocks` ends at genesis at the latest. -/
theorem WellFormed.calculateDownloadedBlocksLoop (wf : c.WellFormed) (fuel : Nat) (b : BlockHeaderWithNumber)
    (holds : c.Holds b) (enough : b.number < fuel) : ∃ count, c.calculateDownloadedBlocksLoop fuel b = .ok count := by
  induction fuel generalizing b with
  | zero => omega
  | succ fuel ih =>
    rw [Chain.calculateDownloadedBlocksLoop]
    split
    · exact ⟨_, rfl⟩
    split
    · exact ⟨_, rfl⟩
    · next positive =>
      obtain ⟨q, atParent, _, holdsQ, step⟩ := wf.parent_holds holds positive
      rw [atParent, Outcome.unwrap_some, Outcome.ok_bind]
      exact ih q holdsQ (by omega)

theorem WellFormed.calculateDownloadedBlocks (wf : c.WellFormed) : ∃ count, c.calculateDownloadedBlocks = .ok count :=
  wf.calculateDownloadedBlocksLoop _ _ wf.top (Nat.lt_succ_self _)

/-- The first loop of the fork branch walks from `last` to its ancestor at the
parent's height. -/
theorem Rooted.alignOld (rooted : c.Rooted) (parentNumber fuel : Nat) (last : Hash) (b : BlockHeaderWithNumber)
    (visited : List (Hash × Nat)) (stored : c.knownHeaders last = some b) (level : parentNumber ≤ b.number)
    (enough : b.number < fuel + parentNumber) :
    ∃ a nodes, c.alignOld p parentNumber fuel last b.number visited = .ok (a, parentNumber, visited ++ nodes) ∧
      Walk c.parentOf last (nodes.map Prod.fst) a ∧ c.Known a ∧ c.heightOf a = parentNumber := by
  induction fuel generalizing last b visited with
  | zero => omega
  | succ fuel ih =>
    rw [Chain.alignOld, stored, Outcome.unwrap_some, Outcome.ok_bind]
    by_cases arrived : b.number = parentNumber
    · rw [if_pos arrived]
      refine ⟨last, [], by rw [List.append_nil, arrived]; rfl, .nil _, by simp [Known, stored], ?_⟩
      rw [heightOf_of_known stored, arrived]
    · have positive : b.number ≠ 0 := by omega
      obtain ⟨q, atParent, step⟩ := rooted.parents _ _ stored positive
      have edge : c.parentOf last = some b.header.parent := by rw [parentOf_of_known stored, if_neg positive]
      have below : b.number - 1 = q.number := by omega
      obtain ⟨a, nodes, result, walk, known, height⟩ :=
        ih b.header.parent q (visited ++ [(b.header.hash, b.number)]) atParent (by omega) (by omega)
      refine ⟨a, (b.header.hash, b.number) :: nodes, ?_, ?_, known, height⟩
      · rw [if_neg arrived, Profile.sub_of_le (by omega), Outcome.ok_bind, below, result, List.append_assoc]
        rfl
      · rw [List.map_cons, rooted.keyed _ _ stored]
        exact .cons edge walk

/-- Below the parent's height the first loop runs past genesis. -/
theorem Rooted.alignOld_fault (rooted : c.Rooted) (parentNumber fuel : Nat) (last : Hash) (b : BlockHeaderWithNumber)
    (visited : List (Hash × Nat)) (stored : c.knownHeaders last = some b) (below : b.number < parentNumber) :
    c.alignOld .dev parentNumber fuel last b.number visited = .fault := by
  induction fuel generalizing last b visited with
  | zero => rfl
  | succ fuel ih =>
    rw [Chain.alignOld, stored, Outcome.unwrap_some, Outcome.ok_bind, if_neg (by omega)]
    by_cases positive : b.number ≠ 0
    · obtain ⟨q, atParent, step⟩ := rooted.parents _ _ stored positive
      have next : b.number - 1 = q.number := by omega
      rw [Profile.sub_of_le (by omega), Outcome.ok_bind, next]
      exact ih _ q _ atParent (by omega)
    · rw [sub_dev_eq_fault (by omega)]
      rfl

/-- The second loop of the fork branch walks from two headers of one height to their
last common ancestor. -/
theorem Rooted.stepBack (rooted : c.Rooted) (fuel height : Nat) (x y : Hash) (xNumber : Nat)
    (visitedNew visitedOld : List (Hash × Nat)) (knownX : c.Known x) (knownY : c.Known y) (levelX : c.heightOf x = height)
    (levelY : c.heightOf y = height) (covers : height ≤ xNumber) (enough : height < fuel) :
    ∃ m newNodes oldNodes,
      c.stepBack p fuel x xNumber y height visitedNew visitedOld = .ok (visitedNew ++ newNodes, visitedOld ++ oldNodes) ∧
        Walk c.parentOf x (newNodes.map Prod.fst) m ∧ Walk c.parentOf y (oldNodes.map Prod.fst) m ∧
          LastCommon c.parentOf x y m := by
  induction fuel generalizing height x y xNumber visitedNew visitedOld with
  | zero => omega
  | succ fuel ih =>
    rw [Chain.stepBack]
    by_cases met : x = y
    · rw [if_pos met, ← met]
      exact ⟨x, [], [], by rw [List.append_nil, List.append_nil], .nil _, .nil _, .refl x⟩
    have positive : height ≠ 0 := by
      intro zero
      exact met ((rooted.root_eq knownX (levelX.trans zero)).trans (rooted.root_eq knownY (levelY.trans zero)).symm)
    have graded := rooted.graded
    obtain ⟨b, atX⟩ := Option.isSome_iff_exists.mp knownX
    obtain ⟨d, atY⟩ := Option.isSome_iff_exists.mp knownY
    have numberX : b.number = height := by rw [← heightOf_of_known atX, levelX]
    have numberY : d.number = height := by rw [← heightOf_of_known atY, levelY]
    have edgeX : c.parentOf x = some b.header.parent := by rw [parentOf_of_known atX, if_neg (by omega)]
    have edgeY : c.parentOf y = some d.header.parent := by rw [parentOf_of_known atY, if_neg (by omega)]
    obtain ⟨knownX', stepX⟩ := graded _ _ knownX edgeX
    obtain ⟨knownY', stepY⟩ := graded _ _ knownY edgeY
    obtain ⟨m, newNodes, oldNodes, result, walkX, walkY, common⟩ :=
      ih (height - 1) b.header.parent d.header.parent (xNumber - 1) (visitedNew ++ [(x, xNumber)])
        (visitedOld ++ [(y, height)]) knownX' knownY' (by omega) (by omega) (by omega) (by omega)
    refine ⟨m, (x, xNumber) :: newNodes, (y, height) :: oldNodes, ?_, .cons edgeX walkX, .cons edgeY walkY, ?_⟩
    · rw [if_neg met, atY, Outcome.unwrap_some, Outcome.ok_bind, Profile.sub_of_le (by omega), Outcome.ok_bind, atX,
        Outcome.unwrap_some, Outcome.ok_bind, Profile.sub_of_le (by omega), Outcome.ok_bind, result]
      simp only [List.append_assoc, List.singleton_append]
    · -- neither node is on the other's path: they differ at one height
      have apartX : ∀ z ∈ [x], ¬ Descends c.parentOf d.header.parent z := by
        intro z member path
        have below := (graded.descends knownY' path).2
        rw [List.mem_singleton.mp member] at below
        omega
      have apartY : ∀ z ∈ [y], ¬ Descends c.parentOf x z := by
        intro z member path
        rw [List.mem_singleton.mp member] at path
        exact met (graded.eq_of_descends knownX path (levelX.trans levelY.symm)).symm
      have fromX := Walk.lastCommon (.cons edgeX (.nil _)) apartX common
      exact (Walk.lastCommon (.cons edgeY (.nil _)) apartY fromX.symm).symm

/-- Both loops together: what the fork branch visits on the side of the new header's
parent and on the side of the top, whose hash comes twice. -/
theorem Rooted.forkWalk (rooted : c.Rooted) {new q : BlockHeaderWithNumber} (atParent : c.knownHeaders new.header.parent = some q)
    (step : new.number = q.number + 1) (level : q.number ≤ c.topHeader.number) :
    ∃ m newNodes oldNodes,
      c.forkWalk p new (new.number - 1) = .ok ((new.header.hash, new.number) :: newNodes,
        (c.topHeader.header.hash, c.topHeader.number) :: oldNodes) ∧
        Walk c.parentOf new.header.parent (newNodes.map Prod.fst) m ∧
          Walk c.parentOf c.topHeader.header.hash (oldNodes.map Prod.fst) m ∧
            LastCommon c.parentOf new.header.parent c.topHeader.header.hash m := by
  have graded := rooted.graded
  have knownTop := rooted.known_top
  have below : new.number - 1 = q.number := by omega
  obtain ⟨top, atTop, number⟩ := rooted.top
  obtain ⟨a, front, align, walkTop, knownA, heightA⟩ := rooted.alignOld (p := p) q.number (c.topHeader.number + 2)
    c.topHeader.header.hash top [(c.topHeader.header.hash, c.topHeader.number)] atTop (by omega) (by omega)
  rw [number] at align
  obtain ⟨m, newNodes, oldNodes, result, walkNew, walkOld, common⟩ :=
    rooted.stepBack (p := p) (q.number + 2) q.number new.header.parent a new.number [(new.header.hash, new.number)]
      ([(c.topHeader.header.hash, c.topHeader.number)] ++ front) (by simp [Known, atParent]) knownA
      (heightOf_of_known atParent) heightA (by omega) (by omega)
  refine ⟨m, newNodes, front ++ oldNodes, ?_, walkNew, ?_, ?_⟩
  · rw [Chain.forkWalk, below, align, Outcome.ok_bind]
    exact result
  · rw [List.map_append]
    exact walkTop.append walkOld
  · refine (walkTop.lastCommon (fun z member path => ?_) common.symm).symm
    have higher := graded.height_lt_of_walk knownTop walkTop member
    have := (graded.descends (by simp [Known, atParent]) path).2
    rw [heightOf_of_known atParent] at this
    omega

/-- Above the top's height the fork branch does not return. -/
theorem Rooted.forkWalk_fault (rooted : c.Rooted) {new q : BlockHeaderWithNumber} (step : new.number = q.number + 1)
    (above : c.topHeader.number < q.number) : c.forkWalk .dev new (new.number - 1) = .fault := by
  obtain ⟨top, atTop, number⟩ := rooted.top
  have below : new.number - 1 = q.number := by omega
  rw [Chain.forkWalk, below, ← number, rooted.alignOld_fault q.number _ _ top _ atTop (by omega)]
  rfl

end Chain

/-- What the blocks removed and added by a change of the top must be: those strictly
above the last common ancestor of both tops, the added ones once and parent before child. -/
structure ForkResult (parentOf : Hash → Option Hash) (old new : Hash) (result : HeaderApplicationResult) (m : Hash) :
    Prop where
  common : LastCommon parentOf old new m
  removed : ∀ hash, hash ∈ result.removedBlocks.map Prod.fst ↔ Above parentOf old m hash
  added : ∀ hash, hash ∈ result.addedBlocks.map Prod.fst ↔ Above parentOf new m hash
  nodup : (result.addedBlocks.map Prod.fst).Nodup
  order : ParentsFirst parentOf (· = m) (result.addedBlocks.map Prod.fst)

/-- Walks from both tops to their last common ancestor describe the change. -/
theorem ForkResult.of_walks {c : Chain} (rooted : c.Rooted) {old new m : Hash} {result : HeaderApplicationResult}
    {newNodes oldNodes : List Hash} (knownOld : c.Known old) (knownNew : c.Known new)
    (common : LastCommon c.parentOf old new m) (walkOld : Walk c.parentOf old oldNodes m)
    (walkNew : Walk c.parentOf new newNodes m)
    (removed : ∀ hash, hash ∈ result.removedBlocks.map Prod.fst ↔ hash ∈ oldNodes)
    (added : result.addedBlocks.map Prod.fst = newNodes.reverse) : ForkResult c.parentOf old new result m where
  common := common
  removed hash := (removed hash).trans (rooted.graded.mem_walk_iff knownOld walkOld)
  added hash := by
    rw [added, List.mem_reverse]
    exact rooted.graded.mem_walk_iff knownNew walkNew
  nodup := by
    rw [added]
    exact List.nodup_reverse.mpr (rooted.graded.walk_nodup knownNew walkNew)
  order := by
    rw [added]
    exact walkNew.parentsFirst rfl

namespace Chainman

variable {p : Profile} {w : Chainman} {new q : BlockHeaderWithNumber}

/-- The new header is not on the path of the old top. -/
theorem Extends.notOnMain (grows : Extends w.chain new) (rooted : w.chain.Rooted) :
    ¬ Descends (w.learn new).chain.parentOf w.chain.topHeader.header.hash new.header.hash := by
  intro path
  have before := (grows.descends_iff rooted rooted.known_top).mp path
  exact grows.ne_of_known (rooted.graded.descends rooted.known_top before).1 rfl

/-- A header on the old top: nothing is removed. -/
theorem Extends.forkResult_of_extension (grows : Extends w.chain new) (rooted : w.chain.Rooted)
    (atTop : new.header.parent = w.chain.topHeader.header.hash) :
    ForkResult (w.learn new).chain.parentOf w.chain.topHeader.header.hash new.header.hash
      ⟨[], [(new.header.hash, new.number)]⟩ w.chain.topHeader.header.hash := by
  have learned := (grows.learn_rooted rooted).1
  have edge := grows.learn_parentOf_new
  rw [atTop] at edge
  have walk : Walk (w.learn new).chain.parentOf new.header.hash [new.header.hash] w.chain.topHeader.header.hash :=
    .cons edge (.nil _)
  have known : (w.learn new).chain.Known new.header.hash := by simp [Chain.Known, learn_known_self]
  refine .of_walks learned learned.known_top known ?_ (.nil _) walk (fun _ => Iff.rfl) rfl
  refine (walk.lastCommon (fun z member => ?_) (.refl _)).symm
  rw [List.mem_singleton.mp member]
  exact grows.notOnMain rooted

/-- A header on another known header that is not above the top: the fork branch
returns what the change needs, with the new header last and the old top removed. -/
theorem Extends.forkResult_of_fork (grows : Extends w.chain new) (rooted : w.chain.Rooted)
    (atParent : w.chain.knownHeaders new.header.parent = some q) (step : new.number = q.number + 1)
    (apart : new.header.parent ≠ w.chain.topHeader.header.hash) (level : q.number ≤ w.chain.topHeader.number) :
    ∃ newNodes visitedOld m,
      (w.learn new).chain.forkWalk p new (new.number - 1) = .ok ((new.header.hash, new.number) :: newNodes, visitedOld) ∧
        Above (w.learn new).chain.parentOf w.chain.topHeader.header.hash m w.chain.topHeader.header.hash ∧
          ForkResult (w.learn new).chain.parentOf w.chain.topHeader.header.hash new.header.hash
            ⟨visitedOld, ((new.header.hash, new.number) :: newNodes).reverse⟩ m := by
  have learned := (grows.learn_rooted rooted).1
  have stored : (w.learn new).chain.knownHeaders new.header.parent = some q := by
    rw [learn_known_of_ne grows.parent_ne, atParent]
  have known : (w.learn new).chain.Known new.header.hash := by simp [Chain.Known, learn_known_self]
  obtain ⟨m, newNodes, oldNodes, result, walkNew, walkOld, common⟩ := learned.forkWalk (p := p) stored step level
  have walk : Walk (w.learn new).chain.parentOf new.header.hash (new.header.hash :: newNodes.map Prod.fst) m :=
    .cons grows.learn_parentOf_new walkNew
  have left : Above (w.learn new).chain.parentOf w.chain.topHeader.header.hash m w.chain.topHeader.header.hash := by
    refine ⟨.refl _, walkOld.descends, fun same => apart ?_⟩
    have path := common.left
    rw [← same] at path
    have knownParent : (w.learn new).chain.Known new.header.parent := by simp [Chain.Known, stored]
    have height := (learned.graded.descends knownParent path).2
    have atTop : (w.learn new).chain.heightOf w.chain.topHeader.header.hash = w.chain.topHeader.number :=
      learned.height_top
    refine (learned.graded.eq_of_descends knownParent path ?_).symm
    rw [Chain.heightOf_of_known stored] at height ⊢
    omega
  have inWalk := (learned.graded.mem_walk_iff learned.known_top walkOld).mpr left
  refine ⟨newNodes, _, m, result, left, .of_walks learned learned.known_top known ?_ walkOld walk (fun hash => ?_) ?_⟩
  · have apartNew : ∀ z ∈ [new.header.hash], ¬ Descends (w.learn new).chain.parentOf w.chain.topHeader.header.hash z := by
      intro z member
      rw [List.mem_singleton.mp member]
      exact grows.notOnMain rooted
    exact (Walk.lastCommon (.cons grows.learn_parentOf_new (.nil _)) apartNew common).symm
  · rw [List.map_cons, List.mem_cons]
    constructor
    · rintro (same | member)
      · rw [same]
        exact inWalk
      · exact member
    · intro member
      exact Or.inr member
  · rw [List.map_reverse, List.map_cons]

end Chainman

end Bitlens
