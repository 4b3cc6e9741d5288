import Appearance.Proofs.FrameCalls
import Appearance.Proofs.Order
import Appearance.Value.Code

/-!
# Names as string literals

The names of fonts, images and colors of a catalog stand between quotes in generated code.
`Code.literal?` reads a string literal by the rules of the language: a quote closes it, a backslash
begins an escape, and a line break may not stand in it. As an escape is always longer than the
character that it denotes, a name between quotes denotes itself if and only if it needs no escape
(`Code.literal?_eq_iff`).

A quoted argument may have any character but its quote, so names that need one are read
(`Value.parse_name`), and they are printed as they are (`Value.literals_verbatim_iff`).

The reader of literals is a machine over characters with one state for each part of an escape, and
it is written from the rules of the language alone, so it does not share anything with the printing
of names. The argument about lengths avoids a list of escapes: whatever follows a backslash is read
as one character, so a literal that has a backslash denotes fewer characters than it has. That
every name can come from a source is a separate statement, for the two quotes of value texts.
-/

namespace Appearance

open Appearance.Text

namespace Code

/-! ## Reading string literals -/

/-- Where the reading of a string literal stands. -/
inductive LiteralState where
  | text
  /-- Behind a backslash. -/
  | escape
  /-- Behind the escape that begins a scalar value, which stands between braces. -/
  | scalar
  /-- In a scalar value, with its value and the number of its digits so far. -/
  | digits (value count : Nat)

/-- The character that stands behind a backslash for another one. An interpolation stands for none.
-/
def escaped? : Char → Option Char
  | '0' => some '\x00'
  | '\\' => some '\\'
  | 't' => some '\t'
  | 'n' => some '\n'
  | 'r' => some '\r'
  | '"' => some '"'
  | '\'' => some '\''
  | _ => none

/-- The character of a scalar value of one to eight digits. -/
def scalarOf? (value count : Nat) : Option Char :=
  if 1 ≤ count ∧ count ≤ 8 ∧ value.isValidChar then some (Char.ofNat value) else none

/-- What a string literal denotes from here on, and what stands behind the quote that closes it. -/
def readLiteral : LiteralState → List Char → Option (List Char × List Char)
  | _, [] => none
  | .text, c :: cs =>
    if c = '"' then some ([], cs)
    else if c = '\\' then readLiteral .escape cs
    else if c = '\n' ∨ c = '\r' then none
    else (readLiteral .text cs).map fun r => (c :: r.1, r.2)
  | .escape, c :: cs =>
    if c = 'u' then readLiteral .scalar cs
    else
      match escaped? c with
      | some d => (readLiteral .text cs).map fun r => (d :: r.1, r.2)
      | none => none
  | .scalar, c :: cs => if c = '\x7b' then readLiteral (.digits 0 0) cs else none
  | .digits value count, c :: cs =>
    if c = '\x7d' then
      match scalarOf? value count with
      | some d => (readLiteral .text cs).map fun r => (d :: r.1, r.2)
      | none => none
    else
      match Color.hexDigit? c with
      | some d => readLiteral (.digits (16 * value + d) (count + 1)) cs
      | none => none

/-- What the string literal at the beginning of a text denotes, and what stands behind it. -/
def literal? (text : String) : Option (String × String) :=
  match text.toList with
  | '"' :: cs => (readLiteral .text cs).map fun r => (String.ofList r.1, String.ofList r.2)
  | _ => none

/-! ## Names that denote themselves -/

/-- The character needs no escape in a string literal. -/
def StandsForItself (c : Char) : Prop := c ≠ '"' ∧ c ≠ '\\' ∧ c ≠ '\n' ∧ c ≠ '\r'

instance : DecidablePred StandsForItself := fun _ => inferInstanceAs (Decidable (_ ∧ _))

/-- The name needs no escape in a string literal. -/
def Verbatim (name : String) : Prop := ∀ c ∈ name.toList, StandsForItself c

instance (name : String) : Decidable (Verbatim name) :=
  inferInstanceAs (Decidable (∀ c ∈ name.toList, StandsForItself c))

theorem readLiteral_text_cons {c : Char} (h : StandsForItself c) (cs : List Char) :
    readLiteral .text (c :: cs) = (readLiteral .text cs).map fun r => (c :: r.1, r.2) := by
  obtain ⟨hquote, hbackslash, hfeed, hreturn⟩ := h
  rw [readLiteral, if_neg hquote, if_neg hbackslash, if_neg (not_or.2 ⟨hfeed, hreturn⟩)]

theorem readLiteral_verbatim {name : List Char} (h : ∀ c ∈ name, StandsForItself c)
    (rest : List Char) : readLiteral .text (name ++ '"' :: rest) = some (name, rest) := by
  induction name with
  | nil => rfl
  | cons c name ih =>
    obtain ⟨hc, hname⟩ := List.forall_mem_cons.1 h
    rw [List.cons_append, readLiteral_text_cons hc, ih hname]
    rfl

/-- Reading stops at a quote, and what it has read is at least as long as what that denotes. It is
longer if it has an escape. -/
theorem exists_source_of_readLiteral {state : LiteralState} {cs denoted rest : List Char}
    (h : readLiteral state cs = some (denoted, rest)) :
    ∃ source, cs = source ++ '"' :: rest ∧ denoted.length ≤ source.length ∧
      (state = .text → denoted.length = source.length →
        denoted = source ∧ ∀ c ∈ source, StandsForItself c) := by
  induction cs generalizing state denoted with
  | nil => cases state <;> cases h
  | cons c cs ih =>
    -- what a character or an escape adds to what is read behind it
    have hadd : ∀ {d}, (readLiteral .text cs).map (fun r => (d :: r.1, r.2)) =
        some (denoted, rest) → ∃ tail source, denoted = d :: tail ∧ cs = source ++ '"' :: rest ∧
          tail.length ≤ source.length ∧ (tail.length = source.length →
            tail = source ∧ ∀ c ∈ source, StandsForItself c) := fun hmap => by
      obtain ⟨⟨tail, rest'⟩, hread, heq⟩ := Option.map_eq_some_iff.1 hmap
      cases heq
      obtain ⟨source, hcs, hle, htext⟩ := ih hread
      exact ⟨tail, source, rfl, hcs, hle, htext rfl⟩
    cases state with
    | text =>
      rw [readLiteral] at h
      split_ifs at h with hquote hbackslash hbreak
      · cases h
        exact ⟨[], by rw [hquote]; rfl, le_rfl, fun _ _ => ⟨rfl, nofun⟩⟩
      · obtain ⟨source, hcs, hle, -⟩ := ih h
        refine ⟨c :: source, by rw [hcs]; rfl, hle.trans (Nat.le_succ _), fun _ heq => ?_⟩
        rw [List.length_cons] at heq
        omega
      · obtain ⟨tail, source, rfl, hcs, hle, htext⟩ := hadd h
        refine ⟨c :: source, by rw [hcs]; rfl, Nat.succ_le_succ hle, fun _ heq => ?_⟩
        obtain ⟨rfl, hsource⟩ := htext (Nat.succ.inj heq)
        exact ⟨rfl, List.forall_mem_cons.2
          ⟨⟨hquote, hbackslash, not_or.1 hbreak⟩, hsource⟩⟩
    | escape =>
      rw [readLiteral] at h
      split at h
      · obtain ⟨source, hcs, hle, -⟩ := ih h
        exact ⟨c :: source, by rw [hcs]; rfl, hle.trans (Nat.le_succ _), nofun⟩
      · split at h
        · obtain ⟨tail, source, rfl, hcs, hle, -⟩ := hadd h
          exact ⟨c :: source, by rw [hcs]; rfl, Nat.succ_le_succ hle, nofun⟩
        · cases h
    | scalar =>
      rw [readLiteral] at h
      split at h
      · obtain ⟨source, hcs, hle, -⟩ := ih h
        exact ⟨c :: source, by rw [hcs]; rfl, hle.trans (Nat.le_succ _), nofun⟩
      · cases h
    | digits value count =>
      rw [readLiteral] at h
      split at h
      · split at h
        · obtain ⟨tail, source, rfl, hcs, hle, -⟩ := hadd h
          exact ⟨c :: source, by rw [hcs]; rfl, Nat.succ_le_succ hle, nofun⟩
        · cases h
      · split at h
        · obtain ⟨source, hcs, hle, -⟩ := ih h
          exact ⟨c :: source, by rw [hcs]; rfl, hle.trans (Nat.le_succ _), nofun⟩
        · cases h

/-- A name between quotes is read as itself, up to the second quote, if and only if it needs no
escape. -/
theorem literal?_eq_iff (name rest : String) :
    literal? ("\"" ++ name ++ "\"" ++ rest) = some (name, rest) ↔ Verbatim name := by
  have htext : ("\"" ++ name ++ "\"" ++ rest).toList =
      '"' :: (name.toList ++ '"' :: rest.toList) := by
    simp only [String.toList_append]
    simp
  unfold literal?
  rw [htext]
  constructor
  · intro h
    obtain ⟨⟨denoted, behind⟩, hread, heq⟩ := Option.map_eq_some_iff.1 h
    cases heq
    obtain ⟨source, hsource, -, hverbatim⟩ := exists_source_of_readLiteral hread
    simp only [String.toList_ofList] at hsource hverbatim
    obtain rfl := List.append_cancel_right hsource
    exact fun c hc => (hverbatim trivial rfl).2 c (by simpa using hc)
  · intro h
    simp only [readLiteral_verbatim h, Option.map_some, String.ofList_toList]

end Code

/-! ## Names in the expressions of values -/

/-- The name stands between quotes in the text, and these are its first ones. -/
def Quotes (text name : String) : Prop :=
  ∃ before after, text = before ++ "\"" ++ name ++ "\"" ++ after ∧ '"' ∉ before.toList

theorem quotes_between {before : String} (h : '"' ∉ before.toList) (name after : String) :
    Quotes (before ++ "\"" ++ name ++ ("\"" ++ after)) name := by
  refine ⟨before, after, ?_, h⟩
  simp only [String.append_assoc]

/-- The name that stands between quotes in the expression of a font. -/
def Font.literalName? : Font → Option String
  | symbol name => some name
  | sized (.named name) .. => some name
  | styled (.named name) .. => some name
  | _ => none

/-- In the call of a font its name is quoted. -/
theorem Font.quotes_callSwift (name size style : String) (weight : Option FontWeight)
    (traits : List FontTrait) (scalable : Bool) :
    Quotes (callSwift (.named name) size style weight traits scalable) name := by
  have hfamily : familySwift (.named name) = "\"" ++ name ++ "\"" := rfl
  unfold callSwift
  rw [hfamily]
  refine ⟨"UIFont.font(name: ", ", size: " ++ size ++ ", textStyle: " ++ style ++
    ", weight: " ++ weightSwift weight ++ ", traits: [" ++
    ", ".intercalate (traits.map traitSwift) ++
    "], traitCollection: traitCollection, isScalable: " ++
    (if scalable then "true" else "false") ++ ")", ?_, by decide +kernel⟩
  simp only [String.append_assoc]

/-- In the expression of a font the name of its family is quoted. -/
theorem Font.quotes_toSwift {f : Font} {name : String} (h : f.literalName? = some name)
    (enums : String) : Quotes (f.toSwift enums) name := by
  match f, h with
  | symbol name, rfl =>
    refine ⟨"", "", ?_, List.not_mem_nil⟩
    unfold toSwift
    simp only [String.empty_append, String.append_empty]
  | sized (.named name) size weight traits, rfl =>
    unfold toSwift
    exact quotes_callSwift name _ _ weight traits _
  | styled (.named name) style weight traits, rfl =>
    unfold toSwift
    exact quotes_callSwift name _ _ weight traits _

namespace Value

/-- The name that stands between quotes in the expression of a value. -/
def literalName? : Value → Option String
  | font f => f.literalName?
  | namedColor name => some name
  | image name => some name
  | _ => none

/-- In the expression of a value its name is quoted. -/
theorem quotes_toSwift {v : Value} {name : String} (h : v.literalName? = some name)
    (manager : Option String) : Quotes (v.toSwift manager) name := by
  cases v with
  | font f => exact Font.quotes_toSwift h enums
  | namedColor text =>
    obtain rfl := Option.some.inj h
    have hbefore : '"' ∉ "UIColor(named: ".toList := by decide +kernel
    exact quotes_between hbefore text ")!"
  | image text =>
    obtain rfl := Option.some.inj h
    have hbefore : '"' ∉ "UIImage(named: ".toList := by decide +kernel
    exact quotes_between hbefore text ")!"
  | _ => cases h

/-! ## Names that are read -/

/-- A call with a quoted name and perhaps a word behind it. -/
def nameCall (form name : String) (words : List String) : Expr :=
  .call form (.mk none (.quoted name) "" :: words.map fun w => .mk none (.word w) "")

theorem quoteOf_notMem {name : List Char} (h : '"' ∉ name ∨ '\'' ∉ name) :
    Expr.quoteOf name ∉ name := by
  unfold Expr.quoteOf
  split
  · next hmem => exact h.resolve_left (not_not.2 hmem)
  · next hmem => exact hmem

theorem text?_bare (e : Expr) : e.bare.text? = e.text? := by
  cases e <;> rfl

/-- Names are read from their arguments. -/
theorem mapM_nameOf {arguments : List Argument} {names : List String}
    (h : arguments.map (fun a => a.value.text?) = names.map some) (source : String) :
    arguments.mapM (nameOf source) = .ok names := by
  induction names generalizing arguments with
  | nil => rw [List.map_eq_nil_iff.1 h]; rfl
  | cons name names ih =>
    obtain ⟨a, rest, rfl, ha, hrest⟩ := List.map_eq_cons_iff.1 h
    have hname : nameOf source a = .ok name := by
      rw [nameOf, ha]
    rw [List.mapM_cons, hname, ih hrest]
    rfl

/-- A call with a quoted name and words behind it is read with these texts. -/
theorem exists_parse_nameCall {form name : String} {words : List String}
    (hform : Token.IsWord form.toList) (hname : '"' ∉ name.toList ∨ '\'' ∉ name.toList)
    (hwords : ∀ w ∈ words, Token.IsWord w.toList) :
    ∃ arguments, Expr.parse (nameCall form name words).print = .ok (.call form arguments) ∧
      ∀ source, arguments.mapM (nameOf source) = .ok (name :: words) := by
  have hprintable : (nameCall form name words).Printable := by
    refine .call hform (List.forall_mem_cons.2 ⟨.mk nofun (.quoted (quoteOf_notMem hname)), ?_⟩)
    exact List.forall_mem_map.2 fun w hw => .mk nofun (.word (hwords w hw))
  obtain ⟨e, hparse, hbare⟩ := hprintable.parse_print
  cases e <;> simp only [nameCall, Expr.bare, reduceCtorEq, Expr.call.injEq] at hbare
  obtain ⟨rfl, harguments⟩ := hbare
  have htexts := map_eq_of_forall₂ (Expr.forall₂_of_bareArguments harguments)
    (f := fun a => a.value.text?) (g := fun a => a.value.text?) fun a b hab => by
      rw [← text?_bare, hab.2, text?_bare]
  refine ⟨_, hparse, mapM_nameOf (htexts.trans ?_)⟩
  simp [Argument.value, Expr.text?]

/-- The only name among arguments that are read as one name. -/
theorem singleName_of_mapM {source form name : String} {arguments : List Argument}
    (h : arguments.mapM (nameOf source) = .ok [name]) :
    singleName source form arguments = .ok name := by
  obtain ⟨a, rfl⟩ := List.length_eq_one_iff.1 (forall₂_of_mapM h).length_eq
  rw [List.mapM_cons] at h
  obtain ⟨n, hn, hrest⟩ := bind_eq_ok.1 h
  cases hrest
  exact hn

end Value

/-- A font of a family and a size. -/
theorem Font.parse_sized {typography : List String} {name text : String} {size : Double}
    (hselector : isSelector typography name = false)
    (hfamily : parseFamily name = .ok (.named name, .plain))
    (hsize : Dimension.parse? text = some size) :
    parse typography [name, text] = .ok (.sized (.named name) size none []) := by
  have hsplit : splitFamily typography name [text] = .ok (.named name, .plain, [text]) := by
    simp only [splitFamily, hselector, hfamily, Bool.false_eq_true, if_false]
  have hany : [text].any isSize = true := by simp [isSize, hsize]
  have hselect : select typography (.named name) .plain true (some text) =
      .ok (.sized (.named name) size none []) := by
    rw [select, if_pos rfl, Option.bind_some, hsize]
    rfl
  have hface : parseFace typography name [text] = .ok (.sized (.named name) size none []) := by
    unfold parseFace
    rw [hsplit]
    dsimp only [List.tail_cons, Face.modifyAll, List.head?_cons]
    rw [hany, hselect]
  have hcount : ¬4 < [text].length + 1 := by simp
  rw [parse, List.isEmpty_cons, Bool.false_and, if_neg Bool.false_ne_true, if_neg hcount, hface]

namespace Value

/-- Every name that lacks one of the two quotes can be that of an image, of a color or of a font. -/
theorem parse_name (ctx : ValueContext) {name : String}
    (h : '"' ∉ name.toList ∨ '\'' ∉ name.toList) :
    parse ctx (nameCall "image" name []).print = .ok (.image name) ∧
      parse ctx (nameCall "namedColor" name []).print = .ok (.namedColor name) ∧
      (Font.isSymbolName ctx.typography name = true →
        parse ctx (nameCall "font" name []).print = .ok (.font (.symbol name))) ∧
      (Font.isSelector ctx.typography name = false →
        Font.parseFamily name = .ok (.named name, .plain) →
        ∃ size, parse ctx (nameCall "font" name ["14"]).print =
          .ok (.font (.sized (.named name) size none []))) := by
  have hcall : ∀ form words keyword, Token.IsWord form.toList →
      Keyword.ofName? form = some keyword → (∀ w ∈ words, Token.IsWord w.toList) →
      ∃ source arguments, arguments.mapM (nameOf source) = .ok (name :: words) ∧
        parse ctx (nameCall form name words).print =
          ofCall source ctx keyword (Keyword.isCapitalized form) arguments := by
    intro form words keyword hform hkeyword hwords
    obtain ⟨arguments, hparse, hnames⟩ := exists_parse_nameCall hform h hwords
    refine ⟨_, arguments, hnames (nameCall form name words).print, ?_⟩
    rw [parse, hparse]
    simp only [ofExpr, hkeyword]
  refine ⟨?_, ?_, fun hsymbol => ?_, fun hselector hfamily => ?_⟩
  · obtain ⟨source, arguments, hnames, hread⟩ :=
      hcall "image" [] .image (by decide) (by decide +kernel) (List.forall_mem_nil _)
    rw [hread, ofCall, singleName_of_mapM hnames]
    rfl
  · obtain ⟨source, arguments, hnames, hread⟩ :=
      hcall "namedColor" [] .namedColor (by decide) (by decide +kernel) (List.forall_mem_nil _)
    rw [hread, ofCall, singleName_of_mapM hnames]
    rfl
  · obtain ⟨source, arguments, hnames, hread⟩ :=
      hcall "font" [] .font (by decide) (by decide +kernel) (List.forall_mem_nil _)
    have hfont : Font.parse ctx.typography [name] = .ok (.symbol name) := by
      simp only [Font.parse, List.isEmpty_nil, hsymbol, Bool.and_self, if_true]
    rw [hread, ofCall, hnames]
    simp only [bind, Except.bind, fontOfNames, hfont]
  · obtain ⟨source, arguments, hnames, hread⟩ :=
      hcall "font" ["14"] .font (by decide) (by decide +kernel)
        (List.forall_mem_singleton.2 (by decide))
    obtain ⟨size, hsize⟩ := Option.isSome_iff_exists.1
      (show (Dimension.parse? "14").isSome = true by decide +kernel)
    refine ⟨size, ?_⟩
    rw [hread, ofCall, hnames]
    simp only [bind, Except.bind, fontOfNames, Font.parse_sized hselector hfamily hsize]

/-- The name between quotes in the expression of a value is read as a string literal that denotes it
and ends where the second quote stands, if and only if it needs no escape. Names that need one are
let through at all four places: in an image, in a color, in a symbol and in a font family. -/
theorem literals_verbatim_iff (manager : Option String) (ctx : ValueContext) :
    (∀ (v : Value) (name : String), v.literalName? = some name →
      ∃ before after, v.toSwift manager = before ++ "\"" ++ name ++ "\"" ++ after ∧
        '"' ∉ before.toList ∧
        (Code.literal? ("\"" ++ name ++ "\"" ++ after) = some (name, after) ↔
          Code.Verbatim name)) ∧
      ∀ name : String, '"' ∉ name.toList ∨ '\'' ∉ name.toList →
        parse ctx (nameCall "image" name []).print = .ok (.image name) ∧
          parse ctx (nameCall "namedColor" name []).print = .ok (.namedColor name) ∧
          (Font.isSymbolName ctx.typography name = true →
            parse ctx (nameCall "font" name []).print = .ok (.font (.symbol name))) ∧
          (Font.isSelector ctx.typography name = false →
            Font.parseFamily name = .ok (.named name, .plain) →
            ∃ size, parse ctx (nameCall "font" name ["14"]).print =
              .ok (.font (.sized (.named name) size none []))) := by
  refine ⟨fun v name h => ?_, fun name => parse_name ctx⟩
  obtain ⟨before, after, hswift, hbefore⟩ := quotes_toSwift h manager
  exact ⟨before, after, hswift, hbefore, Code.literal?_eq_iff name after⟩

/-- A quote in the name of an image ends the literal, and what stands behind it is left over. -/
theorem image_cutShort :
    parse ⟨none, []⟩ "image('a\"b')" = .ok (.image "a\"b") ∧
      (image "a\"b").toSwift none = "UIImage(named: " ++ "\"a\"b\")!" ∧
      Code.literal? "\"a\"b\")!" = some ("a", "b\")!") := by
  have hprint : (nameCall "image" "a\"b" []).print = "image('a\"b')" := by decide
  have hname : '"' ∉ "a\"b".toList ∨ '\'' ∉ "a\"b".toList := by decide
  exact ⟨hprint ▸ (parse_name ⟨none, []⟩ hname).1, rfl, by decide⟩

end Value

end Appearance
