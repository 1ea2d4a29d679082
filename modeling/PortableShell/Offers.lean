import PortableShell.CommandSets

set_option relaxedAutoImplicit false
set_option autoImplicit false

/-!
# What Tab offers

The completion finds its candidates by a walk of its own through the registry and the tables of the
built-ins. What it comes to can be told from `sh_resolve_command_internal`, which finds the command
that a dispatch would run.

## Main definitions

* `PortableShell.Offer` — a table of commands, or the items of a provider.
* `PortableShell.Shell.offer` — what is offered behind some tokens, in terms of the resolution.
* `PortableShell.Presents` — a level of the completion is an offer.

## Main results

* `PortableShell.presents_descend` — the walk of the completion comes to the offer.
* `PortableShell.handler_sees_offered` — a provider is asked about the argument that the handler of
  the same command sees.
-/

namespace PortableShell

variable {ω : Type}

/-! ## Offers -/

/-- What is offered: the visible ones of some commands, or the items that a provider gives for an
argument. -/
inductive Offer
  | table (commands : List Cmd)
  | provider (fn : Ptr) (argIndex : ℕ) (ctx : Option Ptr)

/-- What a resolved command offers behind `n` tokens. The argument vector of its handler begins with
the last name of the path. -/
def Resolved.offer (r : Resolved) (n : ℕ) (ctx : Option Ptr) : Offer :=
  match r.cmd with
  | none => .table []
  | some cmd =>
    if cmd.hasSubcommands then .table (if r.consumed = n then cmd.subcommands.cells else [])
    else
      match cmd.completion with
      | none => .table []
      | some fn =>
        if cmd.sensitive then .table []
        else .provider fn (n - (r.consumed - 1)) (cmd.userCtx.or ctx)

/-- What is offered behind some tokens: the roots, the children of a built-in, or what the command
offers that the tokens resolve to. -/
def Shell.offer (s : Shell) (tokens : List CStr) : Offer :=
  if tokens = [] then .table (s.roots ++ rootBuiltins s)
  else if s.cfg.builtinsEnabled ∧ tokens = [str "history"] then .table historyChildren
  else if s.cfg.builtinsEnabled ∧ tokens = [str "echo"] then .table echoChildren
  else (shResolveCommandInternal s tokens).offer tokens.length s.cfg.userCtx

/-- A level of the completion is an offer. -/
inductive Presents (s : Shell) : Option CompletionLevel → Offer → Prop
  | nothing : Presents s none (.table [])
  | roots : Presents s (some (rootLevel s)) (.table (s.roots ++ rootBuiltins s))
  | children (cmd : Cmd) : Presents s (some (childLevel cmd)) (.table cmd.subcommands.cells)
  | provider {cmd : Cmd} {fn : Ptr} (argIndex : ℕ) (hfn : cmd.completion = some fn) :
      Presents s (some (providerLevel cmd argIndex))
        (.provider fn argIndex (cmd.userCtx.or s.cfg.userCtx))

/-! ## The lookup of the completion -/

/-- The lookup among the children of a command. -/
private theorem findExactLevel_childLevel (s : Shell) (cmd : Cmd) (name : CStr) :
    findExactLevel s (childLevel cmd) name = findChild cmd.subcommands.cells name := by
  have hsets : findExactSets s (childLevel cmd) name = none := by
    rw [findExactSets]
    cases s.commandSets <;> rfl
  have hprimary : (childLevel cmd).primary = cmd.subcommands.cells := rfl
  rw [findExactLevel, hsets, hprimary]
  cases findChild cmd.subcommands.cells name <;> rfl

/-- A command that is found is in the table and bears the name. -/
private theorem of_findChild_eq_some {commands : List Cmd} {name : CStr} {cmd : Cmd}
    (h : findChild commands name = some cmd) : cmd ∈ commands ∧ cmd.name = some name :=
  ⟨List.mem_of_find?_eq_some h, by simpa using List.find?_some h⟩

/-- The resolution stops at a leaf. -/
private theorem resolveLoop_leaf {cmd : Cmd} (h : cmd.hasSubcommands = false) (r : Resolved)
    (tokens : List CStr) : resolveLoop (findChild cmd.subcommands.cells) r tokens = r := by
  rw [(hasSubcommands_eq_false_iff cmd).mp h]
  cases tokens <;> rfl

/-! ## The walk of the completion -/

/-- The walk ends at a leaf. -/
private theorem presents_leaf (s : Shell) {cmd : Cmd} (hleaf : cmd.hasSubcommands = false)
    {r : Resolved} (hcmd : r.cmd = some cmd) {n k : ℕ} (hk : n - (r.consumed - 1) = k) :
    Presents s (if cmd.completion.isSome ∧ cmd.sensitive = false then some (providerLevel cmd k)
      else none) (r.offer n s.cfg.userCtx) := by
  subst hk
  simp only [Resolved.offer, hcmd, hleaf, Bool.false_eq_true, if_false]
  cases hfn : cmd.completion with
  | none => exact .nothing
  | some fn =>
    cases hsensitive : cmd.sensitive with
    | true => exact .nothing
    | false => exact .provider _ hfn

/-- **The walk below a command** follows the resolution.

**Proof sketch.** Induction on the tokens. Both walks look up the name in the table of the command;
behind a leaf nothing is offered but what its provider offers. -/
theorem presents_descend_child (s : Shell) {cmd : Cmd} (hcmd : cmd.hasSubcommands = true)
    (tokens : List CStr) {r : Resolved} (hr : r.cmd = some cmd) :
    Presents s (descend s (childLevel cmd) tokens)
      ((resolveLoop (findChild cmd.subcommands.cells) r tokens).offer (r.consumed + tokens.length)
        s.cfg.userCtx) := by
  induction tokens generalizing cmd r with
  | nil =>
    simp only [resolveLoop, Resolved.offer, hr, hcmd, List.length_nil, Nat.add_zero, if_true]
    exact .children cmd
  | cons name tokens ih =>
    rw [descend, findExactLevel_childLevel, resolveLoop, List.length_cons]
    cases findChild cmd.subcommands.cells name with
    | none =>
      have hne : r.consumed ≠ r.consumed + (tokens.length + 1) := by omega
      simp only [Resolved.offer, hr, hcmd, if_true, if_neg hne]
      exact .nothing
    | some next =>
      dsimp only
      cases hsub : next.hasSubcommands with
      | true =>
        rw [if_pos rfl, show r.consumed + (tokens.length + 1) = r.consumed + 1 + tokens.length by
          omega]
        exact ih (r := ⟨some next, r.consumed + 1, _⟩) hsub rfl
      | false =>
        rw [if_neg Bool.false_ne_true, resolveLoop_leaf hsub]
        exact presents_leaf s hsub rfl (by dsimp only; omega)

/-- A command whose children are plain leaves offers its children, and nothing below them. -/
private theorem presents_plain_children (s : Shell) {cmd : Cmd}
    (h : ∀ c ∈ cmd.subcommands.cells, c.hasSubcommands = false ∧ c.completion = none)
    (tokens : List CStr) :
    Presents s (descend s (childLevel cmd) tokens)
      (.table (if tokens = [] then cmd.subcommands.cells else [])) := by
  cases tokens with
  | nil => exact .children cmd
  | cons name tokens =>
    rw [descend, findExactLevel_childLevel, if_neg (List.cons_ne_nil _ _)]
    cases hfind : findChild cmd.subcommands.cells name with
    | none => exact .nothing
    | some next =>
      obtain ⟨hleaf, hfn⟩ := h next (of_findChild_eq_some hfind).1
      simp only [hleaf, hfn, Bool.false_eq_true, if_false]
      exact .nothing

/-- The children of the built-ins are plain leaves. -/
private theorem plain_builtin_children : ∀ cmd ∈ builtinCommands, ∀ c ∈ cmd.subcommands.cells,
    c.hasSubcommands = false ∧ c.completion = none := by
  decide

/-- The walk below a root that no application registered.

**Proof sketch.** The name is no root, so the dispatch offers nothing below it unless it is a
built-in. The built-ins are taken one by one, with the tables that two of them have below. -/
private theorem presents_builtin {s : Shell} {name : CStr} (hroot : findChild s.roots name = none)
    (tokens : List CStr) :
    Presents s (descend s (rootLevel s) (name :: tokens)) (s.offer (name :: tokens)) := by
  have hresolve : (shResolveCommandInternal s (name :: tokens)).offer (name :: tokens).length
      s.cfg.userCtx = .table [] := by
    rw [shResolveCommandInternal, resolveLoop, findRoot_eq, hroot]
    rfl
  rw [descend, findExactLevel_rootLevel, hroot, Option.none_or, Shell.offer,
    if_neg (List.cons_ne_nil _ _), hresolve]
  cases hbuiltins : s.cfg.builtinsEnabled with
  | false =>
    rw [rootBuiltins, hbuiltins]
    exact .nothing
  | true =>
    rw [rootBuiltins, hbuiltins, if_pos rfl]
    cases hfind : findChild builtinCommands name with
    | none =>
      have hname : ∀ cmd ∈ builtinCommands, cmd.name ≠ some name := by
        intro cmd hcmd
        simpa using List.find?_eq_none.mp hfind cmd hcmd
      have hhistory : name ≠ str "history" := by
        rintro rfl
        exact hname _ (List.mem_cons_of_mem _ (List.mem_cons_of_mem _ List.mem_cons_self)) rfl
      have hecho : name ≠ str "echo" := by
        rintro rfl
        exact hname _ (List.mem_cons_of_mem _ (List.mem_cons_of_mem _
          (List.mem_cons_of_mem _ List.mem_cons_self))) rfl
      simp only [List.cons.injEq, hhistory, hecho, false_and, and_false, if_false]
      exact .nothing
    | some cmd =>
      obtain ⟨hmem, hname⟩ := of_findChild_eq_some hfind
      have hcases : cmd ∈ [shCmd "clear" "" "Clear terminal", shCmd "help" "[command]" "Show help",
        shCmdSub "history" "[clear|status]" "Show command history" historyChildren,
        shCmdSub "echo" "on|off|status" "Control local echo" echoChildren] := hmem
      simp only [List.mem_cons, List.not_mem_nil, or_false] at hcases
      rcases hcases with rfl | rfl | rfl | rfl
      · obtain rfl : str "clear" = name := Option.some.inj hname
        exact .nothing
      · obtain rfl : str "help" = name := Option.some.inj hname
        exact .nothing
      · obtain rfl : str "history" = name := Option.some.inj hname
        have hchildren := presents_plain_children s (plain_builtin_children _ hmem) tokens
        cases tokens with
        | nil => exact hchildren
        | cons token tokens =>
          simp only [List.cons.injEq, List.cons_ne_nil, and_false, if_false]
          exact hchildren
      · obtain rfl : str "echo" = name := Option.some.inj hname
        have hchildren := presents_plain_children s (plain_builtin_children _ hmem) tokens
        cases tokens with
        | nil => exact hchildren
        | cons token tokens =>
          simp only [List.cons.injEq, List.cons_ne_nil, and_false, if_false]
          exact hchildren

/-- **The walk of the completion comes to the offer.**

**Proof sketch.** Case split on the first token. A registered root is no built-in, so the offer
is that of the resolution, which both walks reach in step (`presents_descend_child`,
`presents_leaf`). -/
theorem presents_descend {s : Shell} (hreg : Registered s) (tokens : List CStr) :
    Presents s (descend s (rootLevel s) tokens) (s.offer tokens) := by
  cases tokens with
  | nil => exact .roots
  | cons name tokens =>
    cases hroot : findChild s.roots name with
    | none => exact presents_builtin hroot tokens
    | some cmd =>
      obtain ⟨hmem, hname⟩ := of_findChild_eq_some hroot
      have hpath : IsPath s.roots [name] cmd := .single hmem hname
      have hreserved : s.cfg.builtinsEnabled = true → name ∉ reservedNames := fun hb =>
        hpath.not_builtin hreg tokens hb name rfl
      have hhistory : ¬(s.cfg.builtinsEnabled = true ∧ name :: tokens = [str "history"]) := by
        rintro ⟨hb, heq⟩
        exact hreserved hb ((mem_reservedNames_iff name).mpr
            (.inr (.inr (.inr (List.cons.inj heq).1))))
      have hecho : ¬(s.cfg.builtinsEnabled = true ∧ name :: tokens = [str "echo"]) := by
        rintro ⟨hb, heq⟩
        exact hreserved hb ((mem_reservedNames_iff name).mpr (.inr (.inl (List.cons.inj heq).1)))
      rw [Shell.offer, if_neg (List.cons_ne_nil _ _), if_neg hhistory, if_neg hecho, descend,
        findExactLevel_rootLevel, hroot, Option.some_or, shResolveCommandInternal, resolveLoop,
        findRoot_eq, hroot, List.length_cons, Nat.add_comm tokens.length]
      dsimp only
      cases hsub : cmd.hasSubcommands with
      | true =>
        rw [if_pos rfl]
        exact presents_descend_child s hsub tokens (r := ⟨some cmd, 0 + 1, _⟩) rfl
      | false =>
        rw [if_neg Bool.false_ne_true, resolveLoop_leaf hsub]
        exact presents_leaf s hsub rfl (by dsimp only; omega)

/-! ## The argument asked about -/

/-- A provider is offered for a leaf that has one and is not sensitive. -/
private theorem Resolved.of_offer_eq_provider {r : Resolved} {n argIndex : ℕ}
    {ctx ctx' : Option Ptr} {fn : Ptr} (h : r.offer n ctx = .provider fn argIndex ctx') :
    ∃ cmd, r.cmd = some cmd ∧ cmd.subcommands.cells = [] ∧ cmd.completion = some fn ∧
      cmd.sensitive = false ∧ argIndex = n - (r.consumed - 1) ∧ ctx' = cmd.userCtx.or ctx := by
  rw [Resolved.offer] at h
  cases hcmd : r.cmd with
  | none =>
    rw [hcmd] at h
    cases h
  | some cmd =>
    cases hfn : cmd.completion with
    | none =>
      simp only [hcmd, hfn] at h
      split_ifs at h
    | some fn' =>
      simp only [hcmd, hfn] at h
      split_ifs at h with hsub hsensitive
      cases h
      exact ⟨cmd, rfl, (hasSubcommands_eq_false_iff cmd).mp (by simpa using hsub), hfn,
        by simpa using hsensitive, rfl, rfl⟩

/-- The arguments of the handler begin with the last name of the path. -/
private theorem of_commandPlan_eq_handler {s : Shell} {argv args : List CStr} {r : Resolved}
    {cmd : Cmd}
    {fn : Ptr} {ctx : Option Ptr} (h : commandPlan s argv r cmd = .handler fn args ctx) :
    args = argv.drop (r.consumed - 1) ∧ ctx = cmd.userCtx.or s.cfg.userCtx := by
  rw [commandPlan] at h
  cases hfn : cmd.handler with
  | none =>
    simp only [hfn] at h
    split_ifs at h
  | some fn' =>
    simp only [hfn] at h
    split_ifs at h
    cases h
    exact ⟨rfl, rfl⟩

/-- **A provider is asked about the argument that the handler sees.** When a command line that
begins with the tokens and goes on with one more runs a handler, the handler gets this token at the
index that the provider is asked about, and the same context.

**Proof sketch.** The leaf at the end of the longest path is found again whatever follows the
tokens. The handler gets the line from the last name of its path on, so the token stands at the
index that the provider was asked about. -/
theorem handler_sees_offered {s : Shell} (hreg : Registered s) {tokens rest : List CStr}
    {token : CStr} {provider fn : Ptr} {argIndex : ℕ} {ctx ctx' : Option Ptr} {argv : List CStr}
    (hoffer : s.offer tokens = .provider provider argIndex ctx)
    (hplan : plan s (tokens ++ token :: rest) = .handler fn argv ctx') :
    argv[argIndex]? = some token ∧ ctx' = ctx := by
  rw [Shell.offer] at hoffer
  split_ifs at hoffer
  obtain ⟨cmd, hcmd, hleaf, -, -, rfl, rfl⟩ := Resolved.of_offer_eq_provider hoffer
  -- the tokens begin with the path of the leaf, which is resolved alike whatever follows
  obtain ⟨hpath, ⟨tail, htail⟩, -⟩ := (longestPath_iff hreg tokens _ cmd).mpr ⟨hcmd, rfl⟩
  set path := tokens.take (shResolveCommandInternal s tokens).consumed
  obtain ⟨text, htext⟩ := resolve_leaf hreg hpath hleaf
  have hshort : (shResolveCommandInternal s tokens).consumed = path.length := by
    rw [← htail, htext]
  have hlong := htext (tail ++ token :: rest)
  have hbuiltin := hpath.not_builtin hreg (tail ++ token :: rest)
  rw [← List.append_assoc, htail] at hlong hbuiltin
  rw [plan_of_not_builtin (by simp) hbuiltin (congrArg Resolved.cmd hlong), hlong] at hplan
  obtain ⟨rfl, rfl⟩ := of_commandPlan_eq_handler hplan
  have hle : path.length ≤ tokens.length := by
    rw [← htail, List.length_append]
    omega
  have hindex : path.length - 1 + (tokens.length - (path.length - 1)) = tokens.length := by omega
  rw [hshort, List.getElem?_drop, hindex, List.getElem?_append_right le_rfl, Nat.sub_self]
  exact ⟨rfl, rfl⟩

end PortableShell
