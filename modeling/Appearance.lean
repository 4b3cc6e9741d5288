import Appearance.Main
import Appearance.Proofs.AccessorFunctions
import Appearance.Proofs.AccessorTypes
import Appearance.Proofs.Accessors
import Appearance.Proofs.Building
import Appearance.Proofs.ClassPaths
import Appearance.Proofs.Cuts
import Appearance.Proofs.EnumCases
import Appearance.Proofs.ImportedStyles
import Appearance.Proofs.Keys
import Appearance.Proofs.Openness
import Appearance.Proofs.Printing
import Appearance.Proofs.RedirectCycles
import Appearance.Proofs.RuntimeNames
import Appearance.Proofs.Settled
import Appearance.Proofs.Uniqueness
import Appearance.Proofs.ClassTrees
import Appearance.Proofs.ExtensionCycles
import Appearance.Proofs.TypingEnds
import Appearance.Proofs.ViewTypes
import Appearance.Proofs.Division
import Appearance.Proofs.TokenSpans
import Appearance.Proofs.Transparency
import Appearance.Proofs.HeirSearch
import Appearance.Proofs.Shorthands
import Appearance.Proofs.LoneBranches
import Appearance.Proofs.KeyFrames
import Appearance.Proofs.PropertyTypes
import Appearance.Proofs.Provenance
import Appearance.Proofs.ReservedWords
import Appearance.Proofs.StringLiterals
import Appearance.Proofs.ConfigKeys
import Appearance.Proofs.StyleDeclarations
import Appearance.Proofs.ColorSpellings
import Appearance.Proofs.BareWords
import Appearance.Proofs.Fonts
import Appearance.Proofs.AncestorSearch
import Appearance.Proofs.Histories
import Appearance.Proofs.LoadedSuites
