import DirWatch.FileTree.Reading
import DirWatch.Proofs.Path.Relative

/-! # Looking up directories

The absolute path of a directory leads to it, unless a directory on the way may not be searched or a
name on the way is too long. -/

namespace DirWatch

/-! ## Ways through a tree -/

namespace Node

/-- The permission bits of a node that count. -/
def isSearchable : Node → Bool
  | directory _ mode _ => Right.search.isGiven mode
  | _ => false

def isReadable : Node → Bool
  | directory _ mode _ => Right.read.isGiven mode
  | _ => false

theorem at?_append (node : Node) (ns ms : List Name) :
    node.at? (ns ++ ms) = (node.at? ns).bind (·.at? ms) := by
  induction ns generalizing node with
  | nil => rfl
  | cons n ns ih =>
      simp only [List.cons_append, at?]
      cases node.child? n with
      | none => rfl
      | some next => exact ih next

theorem at?_concat (node : Node) (ns : List Name) (n : Name) :
    node.at? (ns ++ [n]) = (node.at? ns).bind (·.child? n) := by
  rw [at?_append]
  cases node.at? ns with
  | none => rfl
  | some next =>
      simp only [at?, Option.bind_some]
      cases next.child? n <;> rfl

/-- Only directories have entries. -/
theorem isDirectory_of_child? {node next : Node} {n : Name} (h : node.child? n = some next) :
    node.isDirectory = true := by
  cases node with
  | directory => rfl
  | file | link => simp [child?, entries] at h

/-- A directory is below directories only. -/
theorem isDirectory_of_at? {node next : Node} {ns : List Name} (h : node.at? ns = some next)
    (hnext : next.isDirectory = true) : node.isDirectory = true := by
  cases ns with
  | nil =>
      obtain rfl := Option.some.inj h
      exact hnext
  | cons n ns =>
      obtain ⟨child, hchild, -⟩ := Option.bind_eq_some_iff.1 h
      exact isDirectory_of_child? hchild

/-- What keeps a look-up from going a way: a directory that may not be searched, or a name that is
too long. -/
def obstacle? : Node → List Name → Option IoFailure
  | _, [] => none
  | node, n :: rest =>
    if !node.isSearchable then some .permissionDenied
    else if Name.limit < n.bytes.length then some .nameTooLong
    else (node.child? n).bind fun next => next.obstacle? rest

theorem of_obstacle? {node : Node} {ns : List Name} {e : IoFailure}
    (h : node.obstacle? ns = some e) : e = .permissionDenied ∨ e = .nameTooLong := by
  induction ns generalizing node with
  | nil => cases h
  | cons n ns ih =>
      unfold obstacle? at h
      split at h
      · exact .inl (Option.some.inj h).symm
      split at h
      · exact .inr (Option.some.inj h).symm
      · obtain ⟨next, -, h⟩ := Option.bind_eq_some_iff.1 h
        exact ih h

/-- An obstacle is on the way to a place or behind it. -/
theorem obstacle?_append {node next : Node} {ns : List Name} (h : node.at? ns = some next)
    (ms : List Name) : node.obstacle? (ns ++ ms) = (node.obstacle? ns).or (next.obstacle? ms) := by
  induction ns generalizing node with
  | nil =>
      obtain rfl := Option.some.inj h
      rfl
  | cons n ns ih =>
      simp only [List.cons_append, obstacle?]
      rw [at?] at h
      obtain ⟨child, hchild, h⟩ := Option.bind_eq_some_iff.1 h
      split
      · rfl
      split
      · rfl
      · rw [hchild, Option.bind_some, Option.bind_some, ih h]

end Node

namespace FileTree

/-! ## Absolute paths -/

theorem below_pathOf (location y : List Name) : (pathOf location).below y = pathOf (location ++ y) :=
  List.foldl_append.symm

theorem pathOf_eq_below (location : List Name) : pathOf location = (pathOf []).below location := rfl

theorem segments_pathOf_concat (location : List Name) (n : Name) :
    (pathOf (location ++ [n])).segments = [] :: (location ++ [n]).map Name.bytes := by
  rw [pathOf_eq_below, Path.segments_below_concat]
  rfl

theorem components_pathOf (location : List Name) :
    (pathOf location).components = .root :: location.map .name := by
  rw [pathOf_eq_below, Path.at_below]
  rfl

/-- The text of a path from the top is that of its names, each after a slash. -/
theorem text_pathOf_concat (location : List Name) (n : Name) :
    (pathOf (location ++ [n])).text =
      (location ++ [n]).flatMap fun m => Path.slash :: m.bytes := by
  induction location using List.reverseRecOn generalizing n with
  | nil =>
      rw [pathOf_eq_below, Path.below_concat, Path.child, Path.join, Path.ofName_not_isAbsolute]
      simp [pathOf, Path.ofName]
  | append_singleton location m ih =>
      have hlast : ((pathOf (location ++ [m])).text.getLast? == some Path.slash) = false := by
        rw [pathOf_eq_below, Path.below_concat, Path.getLast?_text_child, beq_eq_false_iff_ne]
        exact fun h => m.valid.2.2.2 (List.mem_of_getLast? h)
      have hchild : pathOf (location ++ [m] ++ [n]) = (pathOf (location ++ [m])).child n := by
        rw [pathOf_eq_below, Path.below_concat]
        rfl
      have hne : (pathOf (location ++ [m])).text.isEmpty = false := by
        rw [ih]
        simp
      rw [hchild, Path.child, Path.join, Path.ofName_not_isAbsolute, hne, hlast, List.flatMap_append,
        ← ih m]
      simp [Path.ofName]

theorem named_pathOf (location : List Name) : named (pathOf location) = location.map Name.bytes := by
  have hbytes : ∀ ns : List Name,
      (ns.map Name.bytes).filter (fun s => decide (s ≠ [])) = ns.map Name.bytes := by
    intro ns
    refine List.filter_eq_self.2 ?_
    intro s hs
    obtain ⟨n, -, rfl⟩ := List.mem_map.1 hs
    exact decide_eq_true n.valid.1
  cases location using List.reverseRecOn with
  | nil => rfl
  | append_singleton location n =>
      rw [named, segments_pathOf_concat, List.filter_cons_of_neg (by simp), hbytes]

/-- A look-up of an absolute path goes through its names. -/
theorem steps_pathOf (location : List Name) : steps (pathOf location) = location.map Name.bytes := by
  rw [steps, named_pathOf, if_neg]
  intro hslash
  rw [endsInSlash, named_pathOf, Bool.and_eq_true] at hslash
  obtain ⟨hne, hlast⟩ := hslash
  cases location using List.reverseRecOn with
  | nil => cases hne
  | append_singleton location n =>
      rw [pathOf_eq_below, Path.below_concat, Path.getLast?_text_child] at hlast
      exact n.valid.2.2.2 (List.mem_of_getLast? (beq_iff_eq.1 hlast))

/-! ## The walk -/

variable {t : FileTree} {look : LookUp}

theorem allows_bytes (look : LookUp) (mode : Nat) (n : Name) :
    look.allows mode n.bytes = Right.search.isGiven mode := by
  have h := n.valid
  simp [LookUp.allows, h.2.1, h.2.2.1]

/-- One step of a walk from a directory to an entry that is a directory too, or that ends the walk
and is not followed. -/
theorem walk_cons (hmiss : look.mayMiss = false) {links : Nat} {here : List Name} {d next : Node}
    (hd : t.top.at? here = some d) {n : Name} (hn : d.child? n = some next) {rest : List Bytes}
    (hnext : next.isDirectory = true ∨ rest = [] ∧ look.follows = false) :
    t.walk look links here (n.bytes :: rest) =
      if !d.isSearchable then .error .permissionDenied
      else if Name.limit < n.bytes.length then .error .nameTooLong
      else t.walk look links (here ++ [n]) rest := by
  cases d with
  | file | link => simp [Node.child?, Node.entries] at hn
  | directory i mode entries =>
      have hname : Name.ofBytes? n.bytes = some n := dif_pos n.valid
      have hvalid := n.valid
      rw [walk, hd]
      dsimp only
      rw [if_neg hvalid.1, allows_bytes, Node.isSearchable]
      cases Right.search.isGiven mode with
      | false => rfl
      | true =>
          simp only [Bool.not_true, Bool.false_eq_true, if_false, hvalid.2.1, hvalid.2.2.1, hmiss,
            false_and, hname, hn]
          cases next with
          | file | directory => rfl
          | link =>
              rcases hnext with hdir | ⟨rfl, hfollows⟩
              · cases hdir
              · rw [hfollows, walk]
                rfl

/-- A walk through directories comes to their end, or fails at the first obstacle. -/
theorem walk_names (hmiss : look.mayMiss = false) {links : Nat} {here : List Name} {d next : Node}
    (hd : t.top.at? here = some d) {ns : List Name} (hn : d.at? ns = some next) {rest : List Bytes}
    (hnext : next.isDirectory = true ∨ rest = [] ∧ look.follows = false) :
    t.walk look links here (ns.map Name.bytes ++ rest) =
      match d.obstacle? ns with
      | some e => .error e
      | none => t.walk look links (here ++ ns) rest := by
  induction ns generalizing here d with
  | nil => simp [Node.obstacle?]
  | cons n ns ih =>
      rw [Node.at?] at hn
      obtain ⟨child, hchild, hn⟩ := Option.bind_eq_some_iff.1 hn
      have hchildnext : child.isDirectory = true ∨
          ns.map Name.bytes ++ rest = [] ∧ look.follows = false := by
        cases ns with
        | nil =>
            obtain rfl := Option.some.inj hn
            exact hnext
        | cons m ns =>
            obtain ⟨_, hm, -⟩ := Option.bind_eq_some_iff.1 hn
            exact .inl (Node.isDirectory_of_child? hm)
      have hat : t.top.at? (here ++ [n]) = some child := by
        rw [Node.at?_concat, hd, Option.bind_some, hchild]
      rw [List.map_cons, List.cons_append, walk_cons hmiss hd hchild hchildnext, Node.obstacle?,
        hchild, Option.bind_some]
      split
      · rfl
      split
      · rfl
      · rw [ih hat hn, List.append_assoc, List.singleton_append]

/-! ## What is found -/

variable {location : List Name} {d : Node}

theorem node_pathOf (hmiss : look.mayMiss = false) (h : t.top.at? location = some d)
    (hd : d.isDirectory = true ∨ look.follows = false) (hr : (pathOf location).refusal? = none) :
    t.node look (pathOf location) =
      match t.top.obstacle? location with
      | some e => .error e
      | none => .ok d := by
  have hne : (pathOf location).isEmpty = false := by
    cases location using List.reverseRecOn with
    | nil => rfl
    | append_singleton location n =>
        rw [pathOf_eq_below, Path.below_concat, Path.isEmpty, List.isEmpty_eq_false_iff]
        exact Path.text_child_ne_nil _ n
  have hwalk : t.walk look linkLimit [] (location.map Name.bytes ++ []) = _ :=
    walk_names hmiss rfl h (hd.imp id fun hfollows => ⟨rfl, hfollows⟩)
  rw [List.append_nil, List.nil_append] at hwalk
  rw [node, locate, hr]
  dsimp only
  rw [hne, if_neg (by simp), steps_pathOf, hwalk]
  cases t.top.obstacle? location with
  | some e => rfl
  | none =>
      simp only [walk, bind, Except.bind, h]

/-- The metadata of a node, by its absolute path. -/
theorem metadata_pathOf (h : t.top.at? location = some d)
    (hr : (pathOf location).refusal? = none) :
    t.metadata (pathOf location) =
      match t.top.obstacle? location with
      | some e => .error e
      | none => .ok d.metadata := by
  rw [metadata, node_pathOf rfl h (.inr rfl) hr]
  cases t.top.obstacle? location <;> rfl

/-- An entry as its directory shows it. -/
def shown (d : Node) (e : Name × Node) : DirectoryEntry where
  name := e.1
  isDirectory := e.2.isDirectory
  metadata := if d.isSearchable then .ok e.2.metadata else .error .permissionDenied

/-- The entries of a directory, by its absolute path. -/
theorem readDirectory_pathOf (h : t.top.at? location = some d) (hdir : d.isDirectory = true)
    (hr : (pathOf location).refusal? = none) :
    t.readDirectory (pathOf location) =
      match t.top.obstacle? location with
      | some e => .error e
      | none =>
        if !d.isReadable then .error .permissionDenied else .ok (d.entries.map (shown d)) := by
  rw [readDirectory, node_pathOf rfl h (.inl hdir) hr]
  cases t.top.obstacle? location with
  | some e => rfl
  | none =>
      cases d with
      | file | link => cases hdir
      | directory => rfl

/-! ## Paths in other texts -/

/-- A segment that is no component leads on from a directory that may be searched. -/
theorem walk_meaningless {links : Nat} {here : List Name} {d : Node}
    (hd : t.top.at? here = some d) (hdir : d.isDirectory = true) {s : Bytes}
    (hs : Path.componentOf? s = none) (hslash : Path.slash ∉ s) (rest : List Bytes) :
    t.walk look links here (s :: rest) = t.walk look links here rest ∨
      t.walk look links here (s :: rest) = .error .permissionDenied := by
  cases d with
  | file | link => cases hdir
  | directory i mode entries =>
      rw [walk, hd]
      dsimp only
      by_cases hnil : s = []
      · exact .inl (if_pos hnil)
      · have hdot : s = [Path.dot] := by
          by_contra hne
          have hsome := Path.isSome_componentOf? hnil hne hslash
          rw [hs] at hsome
          cases hsome
        rw [if_neg hnil]
        cases look.allows mode s with
        | false => exact .inr rfl
        | true => exact .inl (if_pos hdot)

/-- A walk through directories comes to their end, or a directory may not be searched, or a name is
too long. -/
theorem walk_segments (hmiss : look.mayMiss = false) {links : Nat} {here : List Name} {d next : Node}
    (hd : t.top.at? here = some d) (hdirectory : d.isDirectory = true) {ns : List Name}
    (hn : d.at? ns = some next) (hdir : next.isDirectory = true) {segments : List Bytes}
    (hs : segments.filterMap Path.componentOf? = ns.map .name)
    (hslash : ∀ s ∈ segments, Path.slash ∉ s) :
    t.walk look links here segments = .ok (here ++ ns) ∨
      t.walk look links here segments = .error .permissionDenied ∨
        t.walk look links here segments = .error .nameTooLong := by
  induction segments generalizing here d ns with
  | nil =>
      obtain rfl : ns = [] := List.map_eq_nil_iff.1 hs.symm
      rw [walk, List.append_nil]
      exact .inl rfl
  | cons s segments ih =>
      obtain ⟨hsegment, hsegments⟩ := List.forall_mem_cons.1 hslash
      cases hc : Path.componentOf? s with
      | none =>
          rw [List.filterMap_cons_none hc] at hs
          have hnext : t.walk look links here (s :: segments) = t.walk look links here segments ∨
              t.walk look links here (s :: segments) = .error .permissionDenied :=
            walk_meaningless hd hdirectory hc hsegment segments
          rcases hnext with hw | hw <;> rw [hw]
          · exact ih hd hdirectory hn hs hsegments
          · exact .inr (.inl rfl)
      | some c =>
          rw [List.filterMap_cons_some hc] at hs
          cases ns with
          | nil => cases hs
          | cons n ns =>
              obtain ⟨rfl, hrest⟩ := List.cons.inj hs
              obtain rfl := Path.bytes_of_componentOf? hc
              rw [Node.at?] at hn
              obtain ⟨child, hchild, hn⟩ := Option.bind_eq_some_iff.1 hn
              have hchilddir := Node.isDirectory_of_at? hn hdir
              have hat : t.top.at? (here ++ [n]) = some child := by
                rw [Node.at?_concat, hd, Option.bind_some, hchild]
              rw [walk_cons hmiss hd hchild (.inl hchilddir)]
              split
              · exact .inr (.inl rfl)
              split
              · exact .inr (.inr rfl)
              · have hwalk := ih hat hchilddir hn hrest hsegments
                rwa [List.append_assoc] at hwalk

/-- Segments that mean something are the components of a path. -/
theorem filterMap_named (p : Path) :
    (named p).filterMap Path.componentOf? = p.segments.filterMap Path.componentOf? := by
  rw [named]
  induction p.segments with
  | nil => rfl
  | cons s l ih =>
      cases s with
      | nil =>
          rw [List.filter_cons_of_neg (by simp), ih]
          rfl
      | cons b s =>
          rw [List.filter_cons_of_pos (by simp), List.filterMap_cons, List.filterMap_cons, ih]

/-- The steps of an absolute path have its names. -/
theorem steps_of_at {p : Path} {y : List Name} (hp : Path.At (pathOf location) p y) :
    (steps p).filterMap Path.componentOf? = (location ++ y).map .name ∧
      ∀ s ∈ steps p, Path.slash ∉ s := by
  have hnamed : (named p).filterMap Path.componentOf? = (location ++ y).map .name := by
    have hroot : p.head? = some .root := by
      rw [hp.head?_eq (by simp [components_pathOf]), pathOf_eq_below, Path.head?_below]
      rfl
    have hbody := hp
    rw [Path.At, components_pathOf, Path.components, hroot] at hbody
    have hsegments : p.segments.filterMap Path.componentOf? =
        p.body.filterMap Path.componentOf? := by
      rw [Path.body, hroot]
      unfold Path.head? at hroot
      split at hroot
      · next h => rw [h]; rfl
      · split at hroot <;> cases hroot
      · cases hroot
    rw [filterMap_named, hsegments]
    simpa using hbody
  have hslash : ∀ s ∈ named p, Path.slash ∉ s := fun s hs =>
    Path.slash_not_mem_of_mem_segments (List.mem_filter.1 hs).1
  unfold steps
  split
  · rw [List.filterMap_append, hnamed]
    exact ⟨List.append_nil _, List.forall_mem_append.2 ⟨hslash, by simp⟩⟩
  · exact ⟨hnamed, hslash⟩

/-- A directory is found by its path in any text, or a directory on the way may not be searched, or
the path or a name is too long. -/
theorem node_of_at (hmiss : look.mayMiss = false) {y : List Name}
    (h : t.top.at? (location ++ y) = some d) (hdir : d.isDirectory = true)
    {p : Path} (hp : Path.At (pathOf location) p y)
    (hr : p.refusal? = none) : t.node look p = .ok d ∨
      t.node look p = .error .permissionDenied ∨ t.node look p = .error .nameTooLong := by
  have hne : p.isEmpty = false := by
    by_contra hempty
    have hcomponents : p.components = [] := by
      rw [Bool.not_eq_false, Path.isEmpty, List.isEmpty_iff] at hempty
      obtain ⟨text⟩ := p
      subst hempty
      rfl
    rw [Path.At, components_pathOf] at hp
    rw [hp] at hcomponents
    cases hcomponents
  obtain ⟨hs, hslash⟩ := steps_of_at hp
  rw [node, locate, hr]
  dsimp only
  rw [hne, if_neg (by simp)]
  have hwalk : t.walk look linkLimit [] (steps p) = .ok ([] ++ (location ++ y)) ∨
      t.walk look linkLimit [] (steps p) = .error .permissionDenied ∨
        t.walk look linkLimit [] (steps p) = .error .nameTooLong :=
    walk_segments hmiss rfl (Node.isDirectory_of_at? h hdir) h hdir hs hslash
  rcases hwalk with hw | hw | hw <;> rw [hw]
  · left
    simp only [List.nil_append, bind, Except.bind, h]
  · exact .inr (.inl rfl)
  · exact .inr (.inr rfl)

section InAnyText

variable {y : List Name} {p : Path} (h : t.top.at? (location ++ y) = some d)
  (hdir : d.isDirectory = true) (hp : Path.At (pathOf location) p y) (hr : p.refusal? = none)
include h hdir hp hr

theorem metadata_of_at : t.metadata p = .ok d.metadata ∨
    t.metadata p = .error .permissionDenied ∨ t.metadata p = .error .nameTooLong := by
  rw [metadata]
  have hmiss : LookUp.mayMiss .named = false := rfl
  rcases node_of_at hmiss h hdir hp hr with hn | hn | hn <;> rw [hn]
  · exact .inl rfl
  · exact .inr (.inl rfl)
  · exact .inr (.inr rfl)

theorem readDirectory_of_at :
    (d.isReadable = true ∧ t.readDirectory p = .ok (d.entries.map (shown d))) ∨
      t.readDirectory p = .error .permissionDenied ∨ t.readDirectory p = .error .nameTooLong := by
  rw [readDirectory]
  have hmiss : LookUp.mayMiss .target = false := rfl
  rcases node_of_at hmiss h hdir hp hr with hn | hn | hn <;> rw [hn]
  · cases d with
    | file | link => cases hdir
    | directory i mode entries =>
        dsimp only
        cases hread : Right.read.isGiven mode with
        | false => exact .inr (.inl rfl)
        | true => exact .inl ⟨hread, rfl⟩
  · exact .inr (.inl rfl)
  · exact .inr (.inr rfl)

end InAnyText

end FileTree

end DirWatch
