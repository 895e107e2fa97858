import TolerantParser.Proofs.Parser.CoreSteps
import TolerantParser.Proofs.Stream.Places
import TolerantParser.Workbench.ParserSteps

/-!
Every token that the core goes over is accounted for: it is in one node under construction or in one that has been made,
and there once. Only a name that was put in may be loose, until it is taken. The position counts these tokens, but for
those put in.
-/

namespace TolerantParser

open TokenStream (bind_eq_ok significant)

/-! ### The tokens of nodes -/

/-- The tokens that a node owns itself. -/
def Plant.tokens : Plant → List Cell
  | .whole node => node.tokens
  | .grafted info _ => info.tokens

/-- The tokens of all nodes, of those under construction and of those that have been made. -/
def holdings (collectors : List (Array Cell)) (forest : Forest) : List Cell :=
  collectors.flatMap Array.toList ++ forest.toList.flatMap Plant.tokens

variable {collectors : List (Array Cell)} {forest : Forest} {cells : List Cell}

theorem holdings_grow (inside : collectors = [] → cells = []) :
    (holdings (Parser.grow cells collectors) forest).Perm (holdings collectors forest ++ cells) := by
  cases collectors with
  | nil =>
    rw [inside rfl, Parser.grow_nil, List.append_nil]
  | cons innermost outer =>
    have grown : (innermost.appendList cells).toList = innermost.toList ++ cells := by simp
    refine List.perm_iff_count.2 fun cell => ?_
    simp only [holdings, Parser.grow, List.flatMap_cons, List.count_append, grown]
    omega

theorem holdings_cons (innermost : Array Cell) (outer : List (Array Cell)) (forest : Forest) :
    (holdings outer forest ++ innermost.toList).Perm (holdings (innermost :: outer) forest) := by
  refine List.perm_iff_count.2 fun cell => ?_
  simp only [holdings, List.flatMap_cons, List.count_append]
  omega

theorem Plant.flatMap_modify {plants : List Plant} {number : Nat} (made : number < plants.length)
    {change : Plant → Plant} (adds : ∀ plant, (change plant).tokens = plant.tokens ++ cells) :
    ((plants.modify number change).flatMap Plant.tokens).Perm (plants.flatMap Plant.tokens ++ cells) := by
  induction plants generalizing number with
  | nil => cases made
  | cons plant plants ih =>
    refine List.perm_iff_count.2 fun cell => ?_
    cases number with
    | zero =>
      simp only [List.modify_zero_cons, List.flatMap_cons, adds, List.count_append]
      omega
    | succ number =>
      have later := (ih (Nat.lt_of_succ_lt_succ made)).count_eq cell
      simp only [List.modify_succ_cons, List.flatMap_cons, List.count_append] at later ⊢
      omega

theorem holdings_addTokens {number : Nat} (made : number < forest.size) (cells : List Cell) :
    (holdings collectors (forest.addTokens number cells)).Perm (holdings collectors forest ++ cells) := by
  rw [holdings, holdings, List.append_assoc, Forest.addTokens, Array.toList_modify]
  refine List.Perm.append_left _ (Plant.flatMap_modify (by simpa using made) fun plant => ?_)
  cases plant <;> rfl

theorem holdings_graft (kind : NodeKind) (detail : Detail) (anchor : Cell) (parts : List (Label × Option Nat))
    (cells : List Cell) :
    (holdings collectors (forest.graft kind detail anchor cells parts)) = holdings collectors forest ++ cells := by
  rw [holdings, holdings, List.append_assoc, Forest.graft, Array.toList_push, List.flatMap_append,
    List.flatMap_singleton]
  rfl

/-! ### Accounts -/

/-- The tokens before the cursor are those that nodes have and those that are loose, which were put in. -/
structure Accounts (p : Parser) (forest : Forest) (loose : List Cell) : Prop where
  sound : p.stream.Sound
  rests : p.stream.Rests
  unmended : p.Unmended
  whole : (holdings p.collectors forest ++ loose).Perm (significant p.stream.behind.reverse)
  put : ∀ cell ∈ loose, cell.synthetic
  position : p.position = (holdings p.collectors forest).countP (!·.synthetic)

namespace Accounts

variable {p q : Parser} {forest forest' : Forest} {loose moved taken left : List Cell}

/-- What is gone over goes to the innermost node, if there is one. -/
theorem course (accounts : Accounts p forest loose) (course : p.Course moved taken left q)
    (inside : p.collectors = [] → taken = []) : Accounts q forest (loose ++ left) := by
  have grown : (holdings (Parser.grow taken p.collectors) forest).Perm (holdings p.collectors forest ++ taken) :=
    holdings_grow inside
  rw [← course.collectors] at grown
  refine ⟨course.sound, course.rests, course.unmended accounts.unmended, ?_,
    List.forall_mem_append.2 ⟨accounts.put, course.put⟩, ?_⟩
  · rw [course.behind, List.reverse_append, List.reverse_reverse, TokenStream.significant_append]
    refine List.perm_iff_count.2 fun cell => ?_
    have before := accounts.whole.count_eq cell
    have since := course.whole.count_eq cell
    have both := grown.count_eq cell
    simp only [List.count_append] at before since both ⊢
    omega
  · have real : taken.countP (!·.synthetic) = taken.length :=
      List.countP_eq_length.2 fun cell member => by simp [course.real accounts.unmended cell member]
    rw [course.position, accounts.position, grown.countP_eq, List.countP_append, real]

/-- Tokens are handed from one node to another. -/
theorem regroup (accounts : Accounts p forest loose) {collectors : List (Array Cell)}
    (same : (holdings collectors forest').Perm (holdings p.collectors forest)) :
    Accounts { p with collectors } forest' loose :=
  ⟨accounts.sound, accounts.rests, accounts.unmended, (same.append_right loose).trans accounts.whole, accounts.put,
    by rw [same.countP_eq]; exact accounts.position⟩

/-- A loose token goes to the innermost node. -/
theorem take (accounts : Accounts p forest loose) (inside : p.collectors ≠ []) {cell : Cell} {rest : List Cell}
    (split : loose.Perm (cell :: rest)) :
    Accounts { p with collectors := Parser.grow [cell] p.collectors } forest rest := by
  have grown : (holdings (Parser.grow [cell] p.collectors) forest).Perm (holdings p.collectors forest ++ [cell]) :=
    holdings_grow fun none => absurd none inside
  refine ⟨accounts.sound, accounts.rests, accounts.unmended, ?_, fun other member =>
    accounts.put other (split.mem_iff.2 (List.mem_cons_of_mem _ member)), ?_⟩
  · have back : (holdings p.collectors forest ++ [cell] ++ rest).Perm (holdings p.collectors forest ++ loose) := by
      rw [List.append_assoc]
      exact split.symm.append_left _
    exact ((grown.append_right _).trans back).trans accounts.whole
  · have put : (!cell.synthetic) = false := by simp [accounts.put cell (split.mem_iff.2 List.mem_cons_self)]
    rw [grown.countP_eq, List.countP_append, List.countP_singleton, put]
    exact accounts.position

/-- The tokens that are accounted for have been read. -/
theorem listed (accounts : Accounts p forest loose) {cell : Cell}
    (member : cell ∈ holdings p.collectors forest ++ loose) : cell ∈ p.stream.behind := by
  have passed := (List.mem_filter.1 (accounts.whole.subset member)).1
  exact List.mem_reverse.1 passed

theorem innermost_listed (accounts : Accounts p forest loose) {innermost : Array Cell} {outer : List (Array Cell)}
    (shape : p.collectors = innermost :: outer) {cell : Cell} (member : cell ∈ innermost.toList) :
    cell ∈ p.stream.behind := by
  refine accounts.listed (List.mem_append_left _ (List.mem_append_left _ ?_))
  rw [shape, List.flatMap_cons]
  exact List.mem_append_left _ member

theorem loose_listed (accounts : Accounts p forest loose) {cell : Cell} (member : cell ∈ loose) :
    cell ∈ p.stream.document :=
  List.mem_append_left _ (List.mem_reverse.2 (accounts.listed (List.mem_append_right _ member)))

/-- A loose token is known by its number. -/
theorem cell?_eq (accounts : Accounts p forest loose) {cell : Cell} (member : cell ∈ loose) :
    p.stream.cell? cell.index = some cell := by
  obtain ⟨place, here⟩ := List.mem_iff_getElem?.1 (accounts.loose_listed member)
  exact TokenStream.Numbered.cell? ⟨accounts.sound.nodup, accounts.sound.below, accounts.sound.defined⟩ here

theorem perm_eraseP (accounts : Accounts p forest loose) {cell : Cell} (member : cell ∈ loose) :
    loose.Perm (cell :: loose.eraseP (·.index == cell.index)) := by
  obtain ⟨found, before, after, -, same, whole, erased⟩ :=
    List.exists_of_eraseP (p := (·.index == cell.index)) member (beq_self_eq_true _)
  have among : found ∈ loose := whole ▸ List.mem_append_right _ List.mem_cons_self
  obtain rfl : found = cell := List.inj_on_of_nodup_map accounts.sound.nodup (accounts.loose_listed among)
    (accounts.loose_listed member) (by simpa using same)
  rw [erased]
  conv => lhs; rw [whole]
  exact List.perm_middle

end Accounts

theorem uncollect_perm {cell : Cell} {innermost rest : Array Cell}
    (takes : Parser.uncollect cell innermost = some rest) :
    ∃ found ∈ innermost.toList, found.index = cell.index ∧ innermost.toList.Perm (rest.toList ++ [found]) := by
  rw [Parser.uncollect] at takes
  split at takes
  next last =>
    obtain rfl := Option.some.inj takes
    obtain ⟨found, here, same⟩ := (Option.any_eq_true ..).1 last
    refine ⟨found, by simpa using Array.mem_of_back? here, by simpa using same, ?_⟩
    rw [← Array.getLast?_toList] at here
    obtain ⟨init, whole⟩ := List.getLast?_eq_some_iff.1 here
    rw [Array.toList_pop, whole, List.dropLast_concat]
  next =>
    split at takes
    next among =>
      obtain rfl := Option.some.inj takes
      rw [← Array.any_toList, List.any_eq_true] at among
      obtain ⟨other, listed, matching⟩ := among
      obtain ⟨found, before, after, -, same, whole, erased⟩ :=
        List.exists_of_eraseP (p := (·.index == cell.index)) listed matching
      refine ⟨found, whole ▸ List.mem_append_right _ List.mem_cons_self, by simpa using same, ?_⟩
      rw [erased, whole]
      exact List.perm_middle.trans (List.perm_append_singleton ..).symm
    next => cases takes

/-! ### Steps at the bench -/

namespace ParserBench

variable {α : Type} {b b' : ParserBench}

theorem onParser_eq_ok {steps : ParseM α} {value : α} (done : onParser steps b = .ok value b') :
    ∃ q, steps b.parser = .ok value q ∧ b' = { b with parser := q } := by
  rw [onParser] at done
  split at done
  next first q met =>
    obtain ⟨rfl, rfl⟩ := EStateM.Result.ok.inj done
    exact ⟨q, met, rfl⟩
  next => cases done

theorem marker_eq_ok {named : Option Nat} {found : Marker} (done : marker named b = .ok found b') :
    b'.parser = b.parser ∧ b'.forest = b.forest := by
  have start : (get : BenchM ParserBench) b = .ok b b := rfl
  rw [marker, TokenStream.bind_ok start] at done
  cases named with
  | some number =>
    cases met : b.markers[number]? with
    | some marker =>
      simp only [met] at done
      obtain ⟨-, rfl⟩ := EStateM.Result.ok.inj done
      exact ⟨rfl, rfl⟩
    | none =>
      simp only [met] at done
      cases done
  | none =>
    cases met : b.markers.back? with
    | some marker =>
      simp only [met] at done
      obtain ⟨-, rfl⟩ := EStateM.Result.ok.inj done
      exact ⟨rfl, rfl⟩
    | none =>
      simp only [met] at done
      cases done

end ParserBench

/-- To show a node changes nothing. -/
theorem ParserBench.shown_eq_ok {b b' : ParserBench} {found : Option Node} {made : Node → ParserReply}
    {reply : ParserReply} (done : (match found with
      | some node => pure (made node)
      | none => pure .nothing : BenchM ParserReply) b = .ok reply b') : b' = b := by
  cases found <;> exact (EStateM.Result.ok.inj done).2.symm

/-- The step can be taken: the node that it adds to has been made, what it takes is loose, and there is a node under
construction for what it collects. Steps that go back and productions are left out. -/
def ParserStep.Admitted (b : ParserBench) (loose : List Cell) : ParserStep → Prop
  | .merge number _ | .eatInto number _ | .attach number _ => number < b.forest.size
  | .take token => token ∈ loose.map Cell.index ∧ b.parser.collectors ≠ []
  | .missingName _ => b.parser.collectors ≠ []
  | .abandon _ => 1 < b.parser.collectors.length
  | .rewind _ | .production _ | .statementList _ | .parameters .. => False
  | step => b.parser.collectors = [] → (Parser.after (ParserBench.run step b)).parser.position = b.parser.position

/-- The names put in that no node has. A repair may put one in, and it may then be taken. -/
def ParserStep.loosen (loose : List Cell) : ParserStep → ParserReply → List Cell
  | .recover .., .outcome outcome => loose ++ outcome.synthetic.toList
  | .take token, _ => loose.eraseP (·.index == token)
  | _, _ => loose

namespace Accounts

variable {b b' : ParserBench} {loose : List Cell}

theorem named (accounts : Accounts b.parser b.forest loose) {named : Option Nat} {found : Marker}
    (names : ParserBench.marker named b = .ok found b') : Accounts b'.parser b'.forest loose := by
  obtain ⟨parser, forest⟩ := ParserBench.marker_eq_ok names
  rw [parser, forest]
  exact accounts

/-- A node is ended, and its tokens go on elsewhere. -/
theorem closed {α : Type} {next : List Cell → BenchM α} {marker : Marker} {value : α}
    (done : (ParserBench.onParser (Parser.close marker) >>= next) b = .ok value b') :
    ∃ innermost outer, b.parser.collectors = innermost :: outer ∧
      next innermost.toList { b with parser := { b.parser with collectors := outer } } = .ok value b' := by
  obtain ⟨cells, c, ends, goesOn⟩ := bind_eq_ok done
  obtain ⟨q, closes, rfl⟩ := ParserBench.onParser_eq_ok ends
  rcases Parser.close_cases marker b.parser with refused | ⟨innermost, outer, shape, -, closed⟩
  · rw [refused] at closes
    cases closes
  · obtain ⟨rfl, rfl⟩ := EStateM.Result.ok.inj (closed.symm.trans closes)
    exact ⟨innermost, outer, shape, goesOn⟩

theorem inside_of_release {cell : Cell} (releases : ParserBench.onParser (Parser.release cell) b = .ok () b') :
    b.parser.collectors ≠ [] := by
  obtain ⟨q, done, rfl⟩ := ParserBench.onParser_eq_ok releases
  rcases Parser.release_cases cell b.parser with refused | ⟨innermost, outer, rest, shape, -⟩
  · cases refused.symm.trans done
  · rw [shape]
    exact List.cons_ne_nil _ _

/-- What a node has taken away is given to one that has been made. -/
theorem released (accounts : Accounts b.parser b.forest loose) {cell : Cell} {node : Nat} (made : node < b.forest.size)
    (listed : cell ∈ b.parser.stream.document)
    {c : ParserBench} (frees : ParserBench.onParser (Parser.release cell) b = .ok () c) :
    Accounts c.parser (c.forest.addTokens node [cell]) loose := by
  obtain ⟨q, releases, rfl⟩ := ParserBench.onParser_eq_ok frees
  rcases Parser.release_cases cell b.parser with refused | ⟨innermost, outer, rest, shape, takes, released⟩
  · rw [refused] at releases
    cases releases
  obtain ⟨-, rfl⟩ := EStateM.Result.ok.inj (released.symm.trans releases)
  obtain ⟨found, member, same, without⟩ := uncollect_perm takes
  have known : found ∈ b.parser.stream.document :=
    List.mem_append_left _ (List.mem_reverse.2 (accounts.innermost_listed shape member))
  obtain rfl : found = cell := List.inj_on_of_nodup_map accounts.sound.nodup known listed same
  refine accounts.regroup ((holdings_addTokens made [found]).trans ?_)
  refine List.perm_iff_count.2 fun other => ?_
  have both := without.count_eq other
  simp only [holdings, shape, List.flatMap_cons, List.count_append] at both ⊢
  omega

/-- What the core goes over goes to the innermost node. -/
theorem gone {α : Type} (accounts : Accounts b.parser b.forest loose) {steps : ParseM α} {value given : α} {q : Parser}
    {moved taken left : List Cell} (done : steps b.parser = .ok value q)
    (course : b.parser.Course moved taken left q) (ran : ParserBench.onParser steps b = .ok given b')
    (spent : b.parser.collectors = [] → b'.parser.position = b.parser.position) :
    value = given ∧ Accounts b'.parser b'.forest (loose ++ left) := by
  obtain ⟨r, done', rfl⟩ := ParserBench.onParser_eq_ok ran
  obtain ⟨rfl, rfl⟩ := EStateM.Result.ok.inj (done.symm.trans done')
  refine ⟨rfl, accounts.course course fun none => List.eq_nil_of_length_eq_zero ?_⟩
  have position : q.position = _ := course.position
  have same : q.position = _ := spent none
  omega

/-- What the core goes over goes to the innermost node, and nothing is put in without being taken. -/
theorem spent {α : Type} (accounts : Accounts b.parser b.forest loose) {steps : ParseM α} {value given : α} {q : Parser}
    {moved taken : List Cell} (done : steps b.parser = .ok value q) (course : b.parser.Course moved taken [] q)
    (ran : ParserBench.onParser steps b = .ok given b')
    (spent : b.parser.collectors = [] → b'.parser.position = b.parser.position) :
    Accounts b'.parser b'.forest loose := by
  simpa using (accounts.gone done course ran spent).2

/-- The token that is consumed is in the innermost node, unless the file ends there. -/
theorem bumped (accounts : Accounts b.parser b.forest loose) {cell : Cell}
    (bumps : ParserBench.onParser Parser.bump b = .ok cell b') (inside : b'.parser.collectors ≠ []) :
    Accounts b'.parser b'.forest loose ∧ b'.forest = b.forest ∧ cell ∈ b'.parser.stream.document := by
  obtain ⟨q, done, rfl⟩ := ParserBench.onParser_eq_ok bumps
  by_cases ends : b.parser.cell.kind = .endOfFile
  · obtain ⟨rfl, rfl⟩ := EStateM.Result.ok.inj ((Parser.bump_end ends).symm.trans done)
    exact ⟨accounts, rfl, List.mem_append_right _ List.mem_cons_self⟩
  · obtain ⟨r, moved, goes, course, -⟩ := Parser.bump_course accounts.sound accounts.rests
    obtain ⟨rfl, rfl⟩ := EStateM.Result.ok.inj (goes.symm.trans done)
    refine ⟨accounts.spent goes course bumps fun none => absurd ?_ inside, rfl, ?_⟩
    · show r.collectors = []
      rw [course.collectors, none]
      rfl
    · have taken : b.parser.cell ∈ b.parser.bumpedCells ++ [] := by simp [Parser.bumpedCells, ends]
      have passed : b.parser.cell ∈ moved := (List.mem_filter.1 (course.whole.subset taken)).1
      refine List.mem_append_left _ ?_
      show _ ∈ r.stream.behind.reverse
      rw [course.behind]
      simp [passed]

/-- A node is made of what a node under construction had. -/
theorem completed {kind : NodeKind} {detail : Detail} {parts : List (Label × Option Nat)} {named : Option Nat}
    {reply : ParserReply} (accounts : Accounts b.parser b.forest loose)
    (ran : ParserBench.run (.complete kind detail parts named) b = .ok reply b') :
    Accounts b'.parser b'.forest loose := by
  obtain ⟨marker, c, names, ran⟩ := bind_eq_ok ran
  have accounts := accounts.named names
  obtain ⟨innermost, outer, shape, ran⟩ := closed ran
  obtain ⟨_, d, grafts, ran⟩ := bind_eq_ok ran
  obtain ⟨-, rfl⟩ := EStateM.Result.ok.inj grafts
  obtain ⟨_, d, gets, ran⟩ := bind_eq_ok ran
  obtain ⟨rfl, rfl⟩ := EStateM.Result.ok.inj gets
  obtain ⟨_, d, gets, ran⟩ := bind_eq_ok ran
  obtain ⟨rfl, rfl⟩ := EStateM.Result.ok.inj gets
  obtain rfl := ParserBench.shown_eq_ok ran
  refine accounts.regroup ?_
  rw [shape, holdings_graft]
  exact holdings_cons innermost outer c.forest

/-- What a node under construction had goes to a node that has been made. -/
theorem merged {number : Nat} {named : Option Nat} {reply : ParserReply} (accounts : Accounts b.parser b.forest loose)
    (made : number < b.forest.size) (ran : ParserBench.run (.merge number named) b = .ok reply b') :
    Accounts b'.parser b'.forest loose := by
  obtain ⟨marker, c, names, ran⟩ := bind_eq_ok ran
  have forest := (ParserBench.marker_eq_ok names).2
  have accounts := accounts.named names
  obtain ⟨innermost, outer, shape, ran⟩ := closed ran
  obtain ⟨_, d, adds, ran⟩ := bind_eq_ok ran
  obtain ⟨-, rfl⟩ := EStateM.Result.ok.inj adds
  obtain ⟨_, d, gets, ran⟩ := bind_eq_ok ran
  obtain ⟨rfl, rfl⟩ := EStateM.Result.ok.inj gets
  obtain rfl := ParserBench.shown_eq_ok ran
  refine accounts.regroup ?_
  rw [shape]
  exact (holdings_addTokens (forest ▸ made) _).trans (holdings_cons innermost outer c.forest)

/-- What a node under construction had goes to the one around it. -/
theorem abandoned {named : Option Nat} {reply : ParserReply} (accounts : Accounts b.parser b.forest loose)
    (around : 1 < b.parser.collectors.length) (ran : ParserBench.run (.abandon named) b = .ok reply b') :
    Accounts b'.parser b'.forest loose := by
  obtain ⟨marker, c, names, ran⟩ := bind_eq_ok ran
  have parser := (ParserBench.marker_eq_ok names).1
  have accounts := accounts.named names
  obtain ⟨_, d, abandons, ran⟩ := bind_eq_ok ran
  obtain ⟨-, rfl⟩ := EStateM.Result.ok.inj ran
  obtain ⟨q, done, rfl⟩ := ParserBench.onParser_eq_ok abandons
  obtain ⟨cells, r, closes, collects⟩ := bind_eq_ok done
  rcases Parser.close_cases marker c.parser with refused | ⟨innermost, outer, shape, -, closed⟩
  · cases refused.symm.trans closes
  obtain ⟨rfl, rfl⟩ := EStateM.Result.ok.inj (closed.symm.trans closes)
  obtain ⟨-, rfl⟩ := EStateM.Result.ok.inj ((Parser.collect_eq _ _).symm.trans collects)
  refine accounts.regroup ?_
  rw [shape]
  refine (holdings_grow fun none => ?_).trans (holdings_cons innermost outer c.forest)
  have deep : 1 < c.parser.collectors.length := parser ▸ around
  rw [shape, show outer = [] from none] at deep
  simp at deep

/-- A token is consumed for a node that has been made. -/
theorem eatenInto {number : Nat} {kind : TokenKind} {reply : ParserReply} (accounts : Accounts b.parser b.forest loose)
    (made : number < b.forest.size) (ran : ParserBench.run (.eatInto number kind) b = .ok reply b') :
    Accounts b'.parser b'.forest loose := by
  obtain ⟨here, c, looks, ran⟩ := bind_eq_ok ran
  obtain ⟨rfl, rfl⟩ := EStateM.Result.ok.inj looks
  split at ran
  next =>
    obtain ⟨cell, c, bumps, ran⟩ := bind_eq_ok ran
    obtain ⟨_, d, releases, ran⟩ := bind_eq_ok ran
    obtain ⟨_, e, adds, ran⟩ := bind_eq_ok ran
    obtain ⟨-, rfl⟩ := EStateM.Result.ok.inj adds
    obtain ⟨-, rfl⟩ := EStateM.Result.ok.inj ran
    obtain ⟨after, same, listed⟩ := accounts.bumped bumps (inside_of_release releases)
    exact after.released (same ▸ made) listed releases
  next =>
    obtain ⟨-, rfl⟩ := EStateM.Result.ok.inj ran
    exact accounts

/-- A token of the innermost node is given to a node that has been made. -/
theorem attached {number token : Nat} {reply : ParserReply} (accounts : Accounts b.parser b.forest loose)
    (made : number < b.forest.size) (ran : ParserBench.run (.attach number token) b = .ok reply b') :
    Accounts b'.parser b'.forest loose := by
  obtain ⟨found, c, finds, ran⟩ := bind_eq_ok ran
  obtain ⟨rfl, rfl⟩ := EStateM.Result.ok.inj finds
  cases found : b.parser.stream.cell? token with
  | none =>
    rw [found] at ran
    obtain ⟨-, rfl⟩ := EStateM.Result.ok.inj ran
    exact accounts
  | some cell =>
    rw [found] at ran
    obtain ⟨_, c, releases, ran⟩ := bind_eq_ok ran
    obtain ⟨_, d, adds, ran⟩ := bind_eq_ok ran
    obtain ⟨-, rfl⟩ := EStateM.Result.ok.inj adds
    obtain ⟨-, rfl⟩ := EStateM.Result.ok.inj ran
    exact accounts.released made (List.mem_of_find?_eq_some found) releases

/-- A name that was put in is taken. -/
theorem taken {token : Nat} {reply : ParserReply} (accounts : Accounts b.parser b.forest loose)
    (listed : token ∈ loose.map Cell.index) (inside : b.parser.collectors ≠ [])
    (ran : ParserBench.run (.take token) b = .ok reply b') :
    Accounts b'.parser b'.forest (loose.eraseP (·.index == token)) := by
  obtain ⟨cell, member, rfl⟩ := List.mem_map.1 listed
  obtain ⟨found, c, finds, ran⟩ := bind_eq_ok ran
  obtain ⟨rfl, rfl⟩ := EStateM.Result.ok.inj finds
  rw [accounts.cell?_eq member] at ran
  obtain ⟨_, c, takes, ran⟩ := bind_eq_ok ran
  obtain ⟨-, rfl⟩ := EStateM.Result.ok.inj ran
  obtain ⟨q, done, rfl⟩ := ParserBench.onParser_eq_ok takes
  obtain ⟨_, r, collects, gives⟩ := bind_eq_ok done
  obtain ⟨-, rfl⟩ := EStateM.Result.ok.inj ((Parser.collect_eq _ _).symm.trans collects)
  obtain ⟨-, rfl⟩ := EStateM.Result.ok.inj gives
  exact accounts.take inside (accounts.perm_eraseP member)

/-- A name is put in and taken at once. -/
theorem missing {message : Option String} {reply : ParserReply} (accounts : Accounts b.parser b.forest loose)
    (inside : b.parser.collectors ≠ []) (ran : ParserBench.run (.missingName message) b = .ok reply b') :
    Accounts b'.parser b'.forest loose := by
  obtain ⟨cell, c, takes, ran⟩ := bind_eq_ok ran
  obtain ⟨-, rfl⟩ := EStateM.Result.ok.inj ran
  obtain ⟨put, q, done, course⟩ := Parser.takeMissingName_course message accounts.sound accounts.rests
  obtain ⟨r, done', rfl⟩ := ParserBench.onParser_eq_ok takes
  obtain ⟨-, rfl⟩ := EStateM.Result.ok.inj (done.symm.trans done')
  have same : q.collectors = b.parser.collectors := by rw [course.collectors, Parser.grow_nil]
  exact (accounts.course course fun _ => rfl).take (same ▸ inside) (List.perm_append_singleton ..)

/-- A step keeps the accounts. -/
theorem step {step : ParserStep} {reply : ParserReply} (accounts : Accounts b.parser b.forest loose)
    (admitted : step.Admitted b loose) (ran : ParserBench.run step b = .ok reply b') :
    Accounts b'.parser b'.forest (step.loosen loose reply) := by
  have sound := accounts.sound
  have rests := accounts.rests
  have left : (Parser.after (ParserBench.run step b)).parser = b'.parser := by rw [ran, Parser.after]
  cases step
  case start =>
    obtain ⟨-, rfl⟩ := EStateM.Result.ok.inj ran
    exact accounts.regroup (.refl _)
  case complete => exact accounts.completed ran
  case merge => exact accounts.merged admitted ran
  case abandon => exact accounts.abandoned admitted ran
  case bump =>
    obtain ⟨cell, c, bumps, ran⟩ := bind_eq_ok ran
    obtain ⟨-, rfl⟩ := EStateM.Result.ok.inj ran
    obtain ⟨q, moved, done, course, -⟩ := Parser.bump_course sound rests
    exact accounts.spent done course bumps fun none => left ▸ admitted none
  case eat kind =>
    obtain ⟨cell, c, eats, ran⟩ := bind_eq_ok ran
    obtain ⟨-, rfl⟩ := EStateM.Result.ok.inj ran
    obtain ⟨_, q, moved, taken, done, course⟩ := Parser.eat?_course kind sound rests
    exact accounts.spent done course eats fun none => left ▸ admitted none
  case eatInto => exact accounts.eatenInto admitted ran
  case attach => exact accounts.attached admitted ran
  case take => exact accounts.taken admitted.1 admitted.2 ran
  case «at» kinds =>
    obtain ⟨here, c, looks, ran⟩ := bind_eq_ok ran
    obtain ⟨-, rfl⟩ := EStateM.Result.ok.inj ran
    obtain ⟨-, rfl⟩ := EStateM.Result.ok.inj looks
    exact accounts
  case nth count =>
    obtain ⟨kind, c, looks, ran⟩ := bind_eq_ok ran
    obtain ⟨-, rfl⟩ := EStateM.Result.ok.inj ran
    obtain ⟨_, q, done, course⟩ := Parser.nth_course count sound rests
    exact accounts.spent done course looks fun none => left ▸ admitted none
  case recover kind message closers =>
    obtain ⟨outcome, c, recovers, ran⟩ := bind_eq_ok ran
    obtain ⟨rfl, rfl⟩ := EStateM.Result.ok.inj ran
    obtain ⟨_, q, moved, done, course⟩ := Parser.recover_course kind message closers sound rests
    obtain ⟨rfl, after⟩ := accounts.gone done course recovers fun none => left ▸ admitted none
    exact after
  case expectCloser kind message =>
    obtain ⟨cell, c, expects, ran⟩ := bind_eq_ok ran
    obtain ⟨-, rfl⟩ := EStateM.Result.ok.inj ran
    obtain ⟨_, q, moved, taken, done, course⟩ := Parser.expectCloser_course kind message sound rests
    exact accounts.spent done course expects fun none => left ▸ admitted none
  case missingName => exact accounts.missing admitted ran
  case skipLine =>
    obtain ⟨_, c, skips, ran⟩ := bind_eq_ok ran
    obtain ⟨-, rfl⟩ := EStateM.Result.ok.inj ran
    obtain ⟨q, moved, taken, done, course⟩ := Parser.skipLine_course sound rests
    exact accounts.spent done course skips fun none => left ▸ admitted none
  case checkpoint =>
    obtain ⟨-, rfl⟩ := EStateM.Result.ok.inj ran
    exact accounts
  case rewind => exact admitted.elim
  case progress =>
    obtain ⟨-, rfl⟩ := EStateM.Result.ok.inj ran
    exact accounts
  case finish =>
    obtain ⟨errors, c, finishes, ran⟩ := bind_eq_ok ran
    obtain ⟨-, rfl⟩ := EStateM.Result.ok.inj ran
    obtain ⟨q, done, rfl⟩ := ParserBench.onParser_eq_ok finishes
    obtain ⟨_, r, gets, done⟩ := bind_eq_ok done
    obtain ⟨rfl, rfl⟩ := EStateM.Result.ok.inj gets
    split at done
    · obtain ⟨-, rfl⟩ := EStateM.Result.ok.inj done
      exact accounts
    · cases done
  case production => exact admitted.elim
  case statementList => exact admitted.elim
  case parameters => exact admitted.elim
  case node number =>
    obtain ⟨_, c, gets, ran⟩ := bind_eq_ok ran
    obtain ⟨rfl, rfl⟩ := EStateM.Result.ok.inj gets
    obtain rfl := ParserBench.shown_eq_ok ran
    exact accounts

end Accounts

/-! ### Runs -/

namespace ParserBench

/-- What comes of steps at a fresh bench, over tokens of the dialect that were all read from a text and the last of
which ends the file. None of the steps was refused. The names that were put in and not taken are listed. -/
inductive Worked : ParserBench → List Cell → Prop
  | fresh {d : Dialect} {options : ParseOptions} {supply : List Token} {b : ParserBench} :
      (∀ token ∈ supply, d.defines token.kind) → EndsOnce (supply.map (·.kind)) →
      (∀ token ∈ supply, token.synthetic = false) → start d options supply = .ok b → Worked b []
  | step {b b' : ParserBench} {loose : List Cell} {step : ParserStep} {reply : ParserReply} : Worked b loose →
      step.Admitted b loose → run step b = .ok reply b' → Worked b' (step.loosen loose reply)

theorem Worked.accounts {b : ParserBench} {loose : List Cell} (worked : Worked b loose) :
    Accounts b.parser b.forest loose := by
  induction worked with
  | @fresh d options supply b defined ended real starts =>
    obtain ⟨stream, opens, sound, rests, -, whole, behind⟩ := TokenStream.ofTokens_eq 0 options.onDemand defined ended
    simp only [start, opens, bind, Except.bind, pure, Except.pure] at starts
    obtain rfl := Except.ok.inj starts
    refine ⟨sound, rests, fun token member => real token ?_, ?_, List.forall_mem_nil _, rfl⟩
    · rw [← whole, TokenStream.tokens_eq]
      exact List.mem_append_right _ member
    · have none : significant stream.behind.reverse = [] := by
        rw [significant, List.filter_reverse]
        exact congrArg List.reverse behind
      exact none ▸ List.Perm.refl _
  | step _ admitted ran ih => exact ih.step admitted ran

/-- The tokens before the cursor that are no comments, but for names that were put in and not taken, are those that
nodes have, each in one node and there once. The position is the number of those of them that were read. -/
theorem tokens_accounted {b : ParserBench} {loose : List Cell} (worked : Worked b loose) :
    (holdings b.parser.collectors b.forest).Perm
        ((significant b.parser.stream.behind.reverse).filter (· ∉ loose)) ∧
      ((holdings b.parser.collectors b.forest).map Cell.index).Nodup ∧
      b.parser.position = (holdings b.parser.collectors b.forest).countP (!·.synthetic) := by
  have accounts := worked.accounts
  have nodup : ((holdings b.parser.collectors b.forest ++ loose).map Cell.index).Nodup := by
    rw [(accounts.whole.map Cell.index).nodup_iff]
    refine accounts.sound.nodup.sublist (List.Sublist.map _ (List.filter_sublist.trans ?_))
    exact List.sublist_append_left ..
  have apart := List.disjoint_of_nodup_append (List.Nodup.of_map _ nodup)
  refine ⟨?_, ?_, accounts.position⟩
  · have kept := accounts.whole.filter (· ∉ loose)
    rw [List.filter_append, List.filter_eq_self.2 fun cell member => by simpa using fun also => apart member also,
      List.filter_eq_nil_iff.2 (by simp), List.append_nil] at kept
    exact kept
  · rw [List.map_append] at nodup
    exact nodup.of_append_left

/-- In front of a name that is all there is in a file another one is put in and taken, and a node is made of both. -/
theorem tokens_accounted_taken :
    ∃ b, Worked b [] ∧ b.parser.position = 1 ∧ b.parser.collectors = [] ∧
      (holdings b.parser.collectors b.forest).map Cell.index = [1, 0] ∧
      (holdings b.parser.collectors b.forest).Perm (significant b.parser.stream.behind.reverse) := by
  let x : Token := ⟨.name, "x", "", ⟨0, 1, by decide⟩, ⟨1, 1⟩, ⟨1, 2⟩, true, false⟩
  let last : Token := ⟨.endOfFile, "", "", ⟨1, 1, by decide⟩, ⟨1, 2⟩, ⟨1, 2⟩, false, false⟩
  let options : ParseOptions := ⟨false, true, 1, by decide⟩
  let fresh : ParserBench := ⟨.ofStream ⟨0, .v26, [], ⟨x, 0⟩, [], [last], 1⟩ options, #[], #[], #[], none⟩
  have defined : ∀ token ∈ [x, last], Dialect.v26.defines token.kind := by decide
  have worked : Worked fresh [] := .fresh defined ⟨[.name], rfl, by decide⟩ (by decide)
    (show start .v26 options _ = _ from rfl)
  have opened := worked.step (show ParserStep.start.Admitted _ _ from fun _ => rfl) rfl
  have mended := opened.step (show (ParserStep.recover .nameExpected none []).Admitted _ _ from nofun) rfl
  have taken := mended.step (show (ParserStep.take 1).Admitted _ _ from ⟨by decide, nofun⟩) rfl
  have bumped := taken.step (show ParserStep.bump.Admitted _ _ from nofun) rfl
  have made := bumped.step (show (ParserStep.complete .name (.name "x") [] none).Admitted _ _ from nofun) rfl
  obtain ⟨whole, -⟩ := tokens_accounted made
  exact ⟨_, made, rfl, rfl, rfl, whole⟩

end ParserBench

end TolerantParser
