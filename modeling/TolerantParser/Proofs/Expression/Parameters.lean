import Mathlib.Data.List.Count
import TolerantParser.Proofs.Expression.Alignment

/-!
Parameter lists and lambdas. A list of parameters or arguments keeps one starred item of each sort, and
reading another one drops the first. `Listed` says what such a list has kept of the pieces read so far,
`Adds` what one more entry does to it.
-/

namespace TolerantParser

/-- What counts of a list of parameters or arguments: its nodes, and those of its starred item of each sort. -/
structure Roster where
  nodes : List Node
  starred : TokenKind → List Node

/-- The list has kept all that was read but for starred items, and those too unless there were several. No two of its
nodes begin at one place, so it does not matter in which order the node that takes them over has them. -/
structure Listed (roster : Roster) (ps : List Piece) : Prop where
  nodes : ∃ lost, (nodesOf ps).Perm (roster.nodes ++ lost) ∧ (lost = [] ↔ StarsOnce ps) ∧
    ∀ node ∈ lost, Superseded ps node
  stars : ∀ kind : TokenKind, kind.isStar → (roster.starred kind ≠ [] ↔ 0 < items kind ps)
  starred : ∀ kind, ∀ node ∈ roster.starred kind, ∃ before item after, ps = before ++ item ++ after ∧
    StarredItem kind item ∧ node ∈ nodesOf item
  plain : EndsPlain ps
  filled : ∀ piece ∈ ps, piece.cells ≠ []
  rising : Rising ps

/-- An entry adds its nodes, and may push a starred item out. -/
structure Adds (roster grown : Roster) (qs : List Piece) : Prop where
  nodes : ∃ dropped, (roster.nodes ++ nodesOf qs).Perm (grown.nodes ++ dropped) ∧
    (dropped = [] ↔ ∀ kind : TokenKind, kind.isStar → roster.starred kind ≠ [] → items kind qs = 0) ∧
    ∀ node ∈ dropped, ∃ kind : TokenKind, kind.isStar ∧ node ∈ roster.starred kind ∧ StarredItem kind qs
  once : StarsOnce qs
  stars : ∀ kind : TokenKind, kind.isStar → (grown.starred kind ≠ [] ↔ roster.starred kind ≠ [] ∨ 0 < items kind qs)
  starred : ∀ kind, ∀ node ∈ grown.starred kind, node ∈ roster.starred kind ∨ StarredItem kind qs ∧ node ∈ nodesOf qs
  plain : EndsPlain qs
  filled : ∀ piece ∈ qs, piece.cells ≠ []
  rising : Rising qs

theorem Listed.add {roster grown : Roster} {ps qs : List Piece} (listed : Listed roster ps)
    (adds : Adds roster grown qs) (apart : Shut ps ∨ Fresh qs) : Listed grown (ps ++ qs) := by
  have more : ∀ kind : TokenKind, kind.isStar → items kind (ps ++ qs) = items kind ps + items kind qs :=
    fun kind star => items_append kind star listed.plain qs
  refine ⟨?_, fun kind star => ?_, fun kind node member => ?_, listed.plain.append adds.plain, ?_,
    listed.rising.append apart adds.rising⟩
  · obtain ⟨lost, kept, once, superseded⟩ := listed.nodes
    obtain ⟨dropped, stays, none, pushed⟩ := adds.nodes
    refine ⟨dropped ++ lost, ?_, ?_, List.forall_mem_append.2 ⟨fun node member => ?_, fun node member => ?_⟩⟩
    · rw [nodesOf_append, ← List.append_assoc]
      refine List.Perm.trans ?_ (stays.append_right lost)
      rw [List.append_assoc]
      refine (kept.append_right _).trans ?_
      rw [List.append_assoc]
      exact List.perm_append_comm.append_left _
    · have few := adds.once
      rw [List.append_eq_nil_iff, none, once, forall_isStar, listed.stars .star rfl, listed.stars .doubleStar rfl]
      unfold StarsOnce at few ⊢
      rw [more .star rfl, more .doubleStar rfl]
      omega
    · obtain ⟨kind, star, held, next⟩ := pushed node member
      obtain ⟨before, item, after, rfl, first, inside⟩ := listed.starred kind node held
      exact ⟨kind, before, item, after, qs, [], by simp, star, first, next, inside⟩
    · exact (superseded node member).around [] qs
  · rw [adds.stars kind star, listed.stars kind star, more kind star]
    omega
  · rcases adds.starred kind node member with early | ⟨item, late⟩
    · obtain ⟨before, item, after, rfl, first, inside⟩ := listed.starred kind node early
      exact ⟨before, item, after ++ qs, by simp, first, inside⟩
    · exact ⟨ps, qs, [], by simp, item, late⟩
  · intro piece member
    rw [List.mem_append] at member
    exact member.elim (listed.filled piece) (adds.filled piece)

theorem listed_nil {roster : Roster} (nodes : roster.nodes = []) (unstarred : ∀ kind, roster.starred kind = []) :
    Listed roster [] :=
  ⟨⟨[], by simp [nodes], by simp [StarsOnce, items], by simp⟩, by simp [unstarred, items], by simp [unstarred],
    endsPlain_nil, by simp, rising_of_bare rfl⟩

/-- An entry without a star. -/
theorem Adds.ofPlain {roster grown : Roster} {qs : List Piece} (plain : Parser.Plain qs)
    (nodes : (roster.nodes ++ nodesOf qs).Perm grown.nodes) (rising : Rising qs)
    (same : ∀ kind, grown.starred kind = roster.starred kind) : Adds roster grown qs := by
  have none : ∀ kind : TokenKind, kind.isStar → items kind qs = 0 := fun kind star => items_plain kind star plain.tokens
  refine ⟨⟨[], by simpa using nodes, by simpa using fun kind star _ => none kind star, by simp⟩, ?_,
    fun kind star => ?_,
    fun kind node member => .inl (same kind ▸ member), endsPlain_of_plain plain.tokens, plain.filled, rising⟩
  · simp [StarsOnce, none .star rfl, none .doubleStar rfl]
  · simp [same, none kind star]

/-- An entry that begins with stars takes the place of one of its sort that there has been. -/
theorem Adds.ofStarred {roster grown : Roster} {mark : TokenKind} {cell : Cell} {node : Node} {run : List Cell}
    {more : List Piece} (star : mark.isStar) (kind : cell.kind = mark) (filled : run ≠ []) (plain : Parser.Plain more)
    (commaless : ∀ cell ∈ tokensOf more, cell.kind ≠ .comma)
    (nodes : (roster.nodes ++ node :: nodesOf more).Perm (grown.nodes ++ roster.starred mark))
    (rising : Rising (.token cell :: .node node run :: more)) (now : grown.starred mark = node :: nodesOf more)
    (others : ∀ kind, kind ≠ mark → grown.starred kind = roster.starred kind) :
    Adds roster grown (.token cell :: .node node run :: more) := by
  have here : StarredItem mark (.token cell :: .node node run :: more) := ⟨cell, node, run, more, rfl, kind, commaless⟩
  have counts : ∀ kind : TokenKind, kind.isStar →
      items kind (.token cell :: .node node run :: more) = if kind = mark then 1 else 0 := fun other starred => by
    have none := items_plain other starred plain.tokens
    by_cases same : other = mark
    · simp [items, kind, same, same ▸ none]
    · simp [items, kind, none, same, Ne.symm same]
  refine ⟨⟨roster.starred mark, nodes, ?_, fun node member => ⟨mark, star, member, here⟩⟩, ?_, fun other starred => ?_,
    fun other node member => ?_, ?_, ?_, rising⟩
  · constructor
    · intro none other starred some
      rw [counts other starred, if_neg]
      rintro rfl
      exact some none
    · intro none
      by_contra some
      simpa [counts mark star] using none mark star some
  · rw [StarsOnce, counts .star rfl, counts .doubleStar rfl]
    split <;> split <;> omega
  · rw [counts other starred]
    by_cases same : other = mark
    · simp [same, now]
    · simp [same, others other same]
  · by_cases same : other = mark
    · subst same
      exact .inr ⟨here, by simpa [now] using member⟩
    · exact .inl (others other same ▸ member)
  · exact (endsPlain_node [.token cell] node run).append (endsPlain_of_plain plain.tokens)
  · intro piece member
    rcases List.mem_cons.1 member with rfl | member
    · simp
    rcases List.mem_cons.1 member with rfl | member
    · exact filled
    · exact plain.filled piece member

/-- Tokens that are not in front of any node leave the list as it is. -/
theorem Adds.ofTokens {roster : Roster} {cells : List Cell} (plain : EndsPlain (tokenPieces cells)) :
    Adds roster roster (tokenPieces cells) := by
  refine ⟨⟨[], by simp, by simp [items_tokenPieces], by simp⟩, by simp [StarsOnce, items_tokenPieces],
    by simp [items_tokenPieces], fun _ _ => .inl, plain, filled_tokenPieces cells,
    rising_of_bare (nodesOf_tokenPieces cells)⟩

/-- A star alone in front of its comma. -/
theorem Adds.alone {roster : Roster} (star : Cell) {comma : Cell} (kind : comma.kind = .comma) :
    Adds roster roster [.token star, .token comma] :=
  have plain : EndsPlain (tokenPieces [star, comma]) := endsPlain_token [.token star] (by simp [kind]; rfl)
  .ofTokens plain

theorem Adds.comma {roster : Roster} {comma : Cell} (kind : comma.kind = .comma) :
    Adds roster roster [.token comma] :=
  .ofPlain (Parser.plain_token (by simp [kind]; rfl)) (by simp) (rising_of_bare rfl) fun _ => rfl

/-- Tokens that were gone over, whichever they are. -/
theorem Adds.skipped {roster : Roster} {qs : List Piece} {q : Parser} (skipped : Parser.Skipped qs q) :
    Adds roster roster qs := by
  obtain ⟨cells, rfl, plain, -⟩ := skipped
  exact .ofTokens plain

/-- A token in front of all that is listed. -/
theorem Listed.behind {roster : Roster} {ps : List Piece} {cell : Cell} (listed : Listed roster ps)
    (plain : cell.kind.isStar = false) : Listed roster (.token cell :: ps) := by
  have first : Parser.Plain [.token cell] := Parser.plain_token plain
  have ends := endsPlain_of_plain first.tokens
  have same : ∀ kind : TokenKind, kind.isStar → items kind (.token cell :: ps) = items kind ps := fun kind star => by
    rw [← List.singleton_append, items_append _ star ends, items_plain _ star first.tokens, Nat.zero_add]
  refine ⟨?_, fun kind star => same kind star ▸ listed.stars kind star, fun kind node member => ?_,
    ends.append listed.plain, ?_,
    show Rising ([.token cell] ++ ps) from (rising_of_bare rfl).append (.inl (shut_of_bare rfl)) listed.rising⟩
  · obtain ⟨lost, nodes, once, superseded⟩ := listed.nodes
    refine ⟨lost, nodes, by rw [once, StarsOnce, StarsOnce, same .star rfl,
      same .doubleStar rfl], fun node member => ?_⟩
    simpa using (superseded node member).around [.token cell] []
  · obtain ⟨before, item, after, rfl, others⟩ := listed.starred kind node member
    exact ⟨.token cell :: before, item, after, rfl, others⟩
  · intro piece member
    exact (List.mem_cons.1 member).elim (fun same => first.filled piece (by simp [same]))
      (listed.filled piece)

/-- What a node that can hold starred items is to have. -/
theorem Listed.held {roster : Roster} {ps : List Piece} {kind : NodeKind} {q : Parser} {laid : Prop}
    {detail : Detail} {children : List (Label × Option Node)} (listed : Listed roster ps) (starred : kind.isStarred)
    (nodes : (Parser.madeOf children).Perm roster.nodes)
    (inline : q.Orderly laid → ∀ cell ∈ cellsOf ps, cell.kind.isInline)
    (sealed : ∀ closer ∈ kind.closer?, Sealed closer ps) (paired : kind = .parameters → Paired children ps)
    (rows : Rows kind detail children ps) :
    Parser.Held kind detail children ps q laid where
  nodes := by
    obtain ⟨lost, kept, once, superseded⟩ := listed.nodes
    exact ⟨lost, kept.trans (nodes.symm.append_right lost), by simp [once, starred], superseded⟩
  starred _ := ⟨listed.plain, listed.filled, inline⟩
  gapless _ same := by
    subst same
    cases starred
  filled _ _ holds := by simp [NodeKind.holdsBlock_of_isStarred starred] at holds
  groups := .firm (NodeKind.bindsLoosely_of_isStarred starred)
  fenced loose := by simp [NodeKind.bindsLoosely_of_isStarred starred] at loose
  literal string := absurd string (NodeKind.ne_string_of_isStarred starred)
  order lo hi lies := by
    obtain ⟨lost, kept, -⟩ := listed.nodes
    exact settled_of_strict (kept.trans (nodes.symm.append_right lost)) (listed.rising lo hi lies)
  contained := .all sealed
  paired := paired
  rows := rows

/-! ### Parameters -/

namespace ParameterList

/-- What counts of a list of parameters. -/
def roster (list : ParameterList) : Roster where
  nodes := Parser.madeOf list.children
  starred
    | .star => (list.star.map Prod.fst).toList ++ (list.star.bind Prod.snd).toList
    | .doubleStar => (list.doubleStar.map Prod.fst).toList ++ (list.doubleStar.bind Prod.snd).toList
    | _ => []

theorem listed_empty : Listed empty.roster [] := listed_nil rfl fun kind => by cases kind <;> rfl

theorem starred_star (list : ParameterList) :
    list.roster.starred .star = (list.star.map Prod.fst).toList ++ (list.star.bind Prod.snd).toList := rfl

theorem starred_doubleStar (list : ParameterList) : list.roster.starred .doubleStar =
    (list.doubleStar.map Prod.fst).toList ++ (list.doubleStar.bind Prod.snd).toList := rfl

theorem count_roster [DecidableEq Node] (list : ParameterList) (node : Node) :
    list.roster.nodes.count node = list.args.toList.count node + list.defaults.toList.count node +
      (list.hints.toList.filterMap id).count node + (list.star.map Prod.fst).toList.count node +
      (list.star.bind Prod.snd).toList.count node + list.keywordOnly.toList.count node +
      (list.keywordDefaults.toList.filterMap id).count node +
      (list.keywordHints.toList.filterMap id).count node +
      (list.doubleStar.map Prod.fst).toList.count node +
      (list.doubleStar.bind Prod.snd).toList.count node := by
  simp only [roster, children, Parser.madeOf_append, Parser.madeOf_several, Parser.madeOf_sparse,
    Parser.madeOf_child?, List.count_append]

variable (list : ParameterList) (node : Node) (hint default : Option Node)

theorem star_perm : (list.roster.nodes ++ node :: hint.toList).Perm
    (({ list with star := some (node, hint) } : ParameterList).roster.nodes ++ list.roster.starred .star) := by
  classical
  rw [List.perm_iff_count]
  intro other
  simp only [starred_star, List.count_append, count_roster, List.count_cons, Option.map_some, Option.bind_some,
    Option.toList_some, List.count_nil]
  omega

theorem doubleStar_perm : (list.roster.nodes ++ node :: hint.toList).Perm
    (({ list with doubleStar := some (node, hint) } : ParameterList).roster.nodes ++
      list.roster.starred .doubleStar) := by
  classical
  rw [List.perm_iff_count]
  intro other
  simp only [starred_doubleStar, List.count_append, count_roster, List.count_cons, Option.map_some, Option.bind_some,
    Option.toList_some, List.count_nil]
  omega

theorem add_perm : (list.roster.nodes ++ ([node] ++ hint.toList ++ default.toList)).Perm
    (list.add node hint default).roster.nodes := by
  classical
  rw [List.perm_iff_count]
  intro other
  simp only [List.count_append, count_roster, add, Array.toList_push, List.filterMap_append]
  cases hint <;> cases default <;> simp <;> omega

theorem addKeywordOnly_perm : (list.roster.nodes ++ ([node] ++ hint.toList ++ default.toList)).Perm
    (list.addKeywordOnly node hint default).roster.nodes := by
  classical
  rw [List.perm_iff_count]
  intro other
  simp only [List.count_append, count_roster, addKeywordOnly, Array.toList_push, List.filterMap_append]
  cases hint <;> cases default <;> simp <;> omega

end ParameterList

namespace Parser

variable {laid lead starts : Prop} {mode : Mode} {level : Depth} {p q r : Parser} {ps qs : List Piece}
  {e : Nested}

theorem parameter_item (works : e.Works laid starts) : Item laid level (parameter e) := by
  intro p ready
  rw [parses_iff, parameter, completes_at]
  split
  next here =>
    have here : p.cell.kind = .leftParen := by simpa using here
    refine Completes.forget (build_parses (fun made ps r => Gathers [] made ps r ∧
        (∃ cell rest, ps = .token cell :: rest ∧ cell.kind = .leftParen) ∧ Sealed .rightParen ps) ready ?_
      fun _ _ _ moves ⟨parts, fences, sealed⟩ => ⟨.loose parts (fun _ _ _ _ => .inr trivial) (fun _ => fences) rfl
        (fun _ closes => Option.some.inj closes ▸ sealed) (.free rfl), fun _ _ =>
        ⟨_, rfl, moves.filled trivial ready.rests⟩⟩)
    rw [parses_iff, discard_bind]
    refine ready.opened.bumpOpening .rightParen (by simp [here]; rfl) fun cell q same moves ready _ => ?_
    refine moves.bind (works.parameter q ready) fun first qs r moves ready ⟨run, made, _⟩ => ?_
    refine moves.bind (separated_operands (fun q => q.cell.kind == .rightParen) ready first
      (fun _ => rfl) works.parameter.operands rfl (by decide)) fun nodes qs r moves ready parted => ?_
    rw [discard_bind]
    refine moves.bind (expectCloser_parses ready none rfl) fun _ qs r moves ready ⟨cells, skipped, _⟩ => ?_
    have opens : cell.kind = .leftParen := by rw [same]; exact here
    refine moves.done ready ⟨by simp [gathers_iff, made, parted.made, skipped], ⟨cell, _, rfl, opens⟩, ?_⟩
    have plain : ClosesNone [.token cell] := closesNone_token (by rw [opens]; rfl)
    exact ((plain.append (closesNone_of_bare (by simp [made]))).append (parted.closesNone rfl)).sealed
      rfl (by simp [skipped])
  next => exact name_item none p ready

theorem parameterHint_parses (works : e.Works laid starts) (ready : Ready laid .line level p)
    (allowed : Bool) : Parses laid .line False level (parameterHint e allowed) p fun hint ps _ =>
      Announced .colon hint ps := by
  cases allowed with
  | true => exact announced_marked ready (works.item true) rfl
  | false => exact (Moves.refl laid .line p).done ready .nothing

/-- A name and its hint begin at different places. -/
theorem rising_hinted (cell : Cell) (node : Node) (run : List Cell) {hint : Option Node}
    (hinted : Announced .colon hint qs) (part : Part hint qs q) : Rising ([.token cell] ++ [.node node run] ++ qs) :=
  Rising.append (fun _ _ _ => List.pairwise_singleton _ node) (.inr (hinted.fresh rfl (by decide)))
    (rising_of_toList part.1)

/-- What one entry does to a list of parameters. A star may stand alone in front of a comma. -/
inductive Entered (list : ParameterList) : Post (Option (Bool × ParameterList))
  | nothing (q : Parser) : Entered list none [] q
  | added {keywordOnly : Bool} {grown : ParameterList} {qs : List Piece} {q : Parser} :
    Adds list.roster grown.roster qs → (∀ ps, Aligned list ps → Aligned grown (ps ++ qs)) →
    Entered list (some (keywordOnly, grown)) qs q
  | alone {keywordOnly : Bool} {star : Cell} {q : Parser} : q.cell.kind = .comma → star.kind = .star →
    Entered list (some (keywordOnly, list)) [.token star] q

theorem parameterEntry_parses (works : e.Works laid starts) (ready : Ready laid .line level p)
    (hints keywordOnly : Bool) (list : ParameterList) :
    Parses laid .line False level (parameterEntry e hints keywordOnly list) p (Entered list) := by
  rw [parses_iff, parameterEntry]
  refine (Moves.refl laid .line p).eat ready rfl (fun cell q star moves ready _ => ?_) fun _ => ?_
  · rw [if_pos rfl, completes_features, completes_at]
    split
    next alone =>
      have comma : q.cell.kind = .comma := by simpa using (Bool.and_eq_true_iff.1 alone).2
      exact moves.done ready (.alone comma star)
    next =>
      refine moves.bind (name_item none q ready) fun node qs r moves ready ⟨run, made, filled⟩ => ?_
      refine moves.bind (parameterHint_parses works ready hints) fun hint qs r moves ready hinted => ?_
      subst made
      have part := hinted.part (q := r) rfl
      refine moves.done ready (.added ?_ fun ps aligned => ?_)
      · show Adds _ _ (.token cell :: .node node run :: qs)
        refine Adds.ofStarred rfl star filled part.2 hinted.commaless (part.1 ▸ list.star_perm node hint)
          (rising_hinted cell node run hinted part) ?_ fun kind other => ?_
        · simp [ParameterList.roster, part.1]
        · cases kind <;> first | rfl | exact absurd rfl other
      · exact aligned.star (by simpa using introduces_of_announced node [.token cell] filled hinted .nothing)
  rw [if_neg (by simp)]
  refine (Moves.refl laid .line p).eat ready rfl (fun cell q star moves ready _ => ?_) fun _ => ?_
  · rw [if_pos rfl]
    refine moves.bind (name_item none q ready) fun node qs r moves ready ⟨run, made, filled⟩ => ?_
    refine moves.bind (parameterHint_parses works ready hints) fun hint qs r moves ready hinted => ?_
    subst made
    have part := hinted.part (q := r) rfl
    refine moves.done ready (.added ?_ fun ps aligned => ?_)
    · show Adds _ _ (.token cell :: .node node run :: qs)
      refine Adds.ofStarred rfl star filled part.2 hinted.commaless (part.1 ▸ list.doubleStar_perm node hint)
        (rising_hinted cell node run hinted part) ?_ fun kind other => ?_
      · simp [ParameterList.roster, part.1]
      · cases kind <;> first | rfl | exact absurd rfl other
    · exact aligned.doubleStar
        (by simpa using introduces_of_announced node [.token cell] filled hinted .nothing)
  rw [if_neg (by simp), completes_at, completes_at, completes_features]
  split
  · refine (parameter_item works p ready).bind fun node ps q moves ready ⟨run, made, filled⟩ => ?_
    refine moves.bind (parameterHint_parses works ready hints) fun hint qs r moves ready hinted => ?_
    refine moves.bind (announced_marked ready (works.item true) rfl) fun default qs' r moves ready defaulted => ?_
    subst made
    have part := hinted.part (q := r) rfl
    have part' := defaulted.part (q := r) rfl
    have nodes : nodesOf ([.node node run] ++ qs ++ qs') = [node] ++ hint.toList ++ default.toList := by
      simp [part.1, part'.1]
    have plain := ((plain_node node filled).append part.2).append part'.2
    have rising := ((rising_node node run).append (.inr (hinted.fresh rfl (by decide)))
      (rising_of_toList part.1)).append
      (.inr (defaulted.fresh rfl (by decide))) (rising_of_toList part'.1)
    have introduces : Introduces node hint default ([.node node run] ++ qs ++ qs') :=
      introduces_of_announced _ [] filled hinted defaulted
    cases keywordOnly with
    | true =>
      exact moves.done ready (.added
        (.ofPlain plain (nodes ▸ list.addKeywordOnly_perm node hint default) rising fun _ => rfl)
        fun ps aligned => aligned.addKeywordOnly introduces)
    | false =>
      exact moves.done ready (.added (.ofPlain plain (nodes ▸ list.add_perm node hint default) rising fun _ => rfl)
        fun ps aligned => aligned.add introduces)
  · exact (Moves.refl laid .line p).done ready (.nothing p)

theorem parameterList_parses (works : e.Works laid starts) (ready : Ready laid .line level p)
    (stop : TokenKind) (hints : Bool) :
    Parses laid .line False level (parameterList e stop hints) p fun list qs _ =>
      Listed list.roster qs ∧ Aligned list qs := by
  rw [parses_iff, parameterList]
  let kept : Post (Option Nat × Bool × ParameterList) := fun value ps _ =>
    Listed value.2.2.roster ps ∧ Aligned value.2.2 ps
  -- another parameter comes behind a comma
  let inv : Post (Option Nat × Bool × ParameterList) := fun value ps q => kept value ps q ∧ Shut ps
  refine Completes.bind ((Moves.refl laid .line p).loop inv kept ready
    ⟨⟨ParameterList.listed_empty, .empty⟩, shut_of_bare rfl⟩ ?_)
    fun value ps q moves ready kept => moves.done ready kept
  rintro ⟨last, keywordOnly, list⟩ ps q before ready
    ⟨⟨(listed : Listed list.roster ps), (aligned : Aligned list ps)⟩, shut⟩
  rw [completes_at, completes_hasProgressed]
  split
  · exact before.done ready ⟨listed, aligned⟩
  rw [completes_get]
  refine before.bind (parameterEntry_parses works ready hints keywordOnly list)
    fun entry qs r behind ready entered => ?_
  cases entered with
  | nothing => exact behind.done ready (by simpa [kept] using ⟨listed, aligned⟩)
  | added adds aligns =>
    refine behind.eat ready rfl (fun cell s comma moves ready lighter => ?_) fun none => ?_
    · have more := (listed.add adds (.inl shut)).add (.comma comma) (.inr (fresh_of_bare rfl))
      exact moves.done ready ⟨⟨⟨more, (aligns ps aligned).append _⟩,
        shut_snoc _ (by rw [comma]; rfl) (by rw [comma]; decide)⟩,
        Nat.lt_of_lt_of_le (lighter (by decide)) (before.later_le behind)⟩
    · exact behind.done ready ⟨listed.add adds (.inl shut), aligns ps aligned⟩
  | @alone _ star _ here =>
    refine behind.eat ready rfl (fun cell s comma moves ready lighter => ?_) fun none => absurd here none
    have both := listed.add (.alone star comma) (.inl shut)
    exact moves.done ready ⟨⟨⟨by simpa using both, (aligned.append _).append _⟩,
      shut_snoc _ (by rw [comma]; rfl) (by rw [comma]; decide)⟩,
      Nat.lt_of_lt_of_le (lighter (by decide)) (before.later_le behind)⟩

/-- A node for parameters is made of what was read for them, which may be nothing. -/
theorem build_parameters {body : ParseM (Detail × List (Label × Option Node))}
    (ready : Ready laid .line level p)
    (parses : Parses laid .line False level body p.opened fun made ps _ =>
      ∃ list : ParameterList, Listed list.roster ps ∧ Aligned list ps ∧ made.2 = list.children) :
    Parses laid .line False level (build .parameters body) p fun node qs _ =>
      ∃ run, qs = [.node node run] :=
  build_parses _ ready parses fun _ ps _ moves ⟨list, listed, aligned, same⟩ =>
    ⟨listed.held rfl (by rw [same]; rfl) moves.allows nofun (fun _ => same ▸ aligned.paired) (same ▸ list.rows _ ps),
      fun _ _ => ⟨_, rfl⟩⟩

theorem lambda_parses (works : e.Works laid starts) (ready : Ready laid .line level p)
    (here : p.cell.kind = .kwLambda) (conditional : Bool) :
    Parses laid .line True level (lambda e conditional) p (Operand .test) := by
  refine build_line ready ?_ rfl
  rw [parses_iff, discard_bind]
  refine ready.opened.bump (by simp [here]; rfl) fun cell q same moves ready _ => ?_
  refine moves.bind (build_parameters ready ?_) fun parameters qs q moves ready ⟨run, made⟩ => ?_
  · refine (parameterList_parses works ready.opened .colon false).bind
      fun list qs r moves ready ⟨listed, aligned⟩ => ?_
    exact moves.done ready ⟨list, listed, aligned, rfl⟩
  refine moves.expect ready rfl rfl rfl fun more r moves ready plain => ?_
  refine moves.bind (works.item conditional r ready) fun body qs r moves ready ⟨run, body, _⟩ => ?_
  refine moves.done ready ⟨by simp [gathers_iff, made, body, plain.nodes], fun _ _ _ _ => .inr trivial, fun _ => ?_,
    nofun, nofun, le_refl _, fun _ _ => .free rfl⟩
  have colon : ∀ cell ∈ tokensOf more, cell.kind ≠ .leftParen := fun cell member => by
    rw [plain.tokens cell member]
    decide
  simpa [made, body, same, here] using colon

end Parser

end TolerantParser
