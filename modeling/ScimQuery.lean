import ScimQuery.Literal.Decimal
import ScimQuery.Literal.Decoding
import ScimQuery.Parsing
import ScimQuery.Proofs.Grammar
import ScimQuery.Proofs.Spacing
import ScimQuery.Proofs.Parsing.Alternatives
import ScimQuery.Proofs.ShapeOrder
import ScimQuery.Proofs.PathGrammar
import ScimQuery.Proofs.Tiling
import ScimQuery.Proofs.Composition
import ScimQuery.Proofs.Parsing.Advance
import ScimQuery.Proofs.ErrorOffsets
import ScimQuery.Proofs.Parsing.Invariant
import ScimQuery.Proofs.Balance
import ScimQuery.Proofs.Parsing.Place
import ScimQuery.Proofs.Productions
import ScimQuery.Proofs.EntryPoints
import ScimQuery.Proofs.Sessions
import ScimQuery.Proofs.QualifiedNames
import ScimQuery.Proofs.Parsing.Reach
import ScimQuery.Proofs.RowLanguages
import ScimQuery.Proofs.Parsing.Tracking
import ScimQuery.Proofs.Parsing.Commitment
import ScimQuery.Proofs.Parsing.Limit
import ScimQuery.Proofs.ViablePrefix
import ScimQuery.Proofs.NestingLimit
import ScimQuery.Proofs.GroupOpeners
import ScimQuery.Proofs.PathErrors
import ScimQuery.Proofs.Namestring
import ScimQuery.Proofs.SavedPositions
import ScimQuery.Proofs.SessionBounds
import ScimQuery.Proofs.RemainingText
import ScimQuery.Proofs.CheckedLiterals
import ScimQuery.Proofs.Neighbours
import ScimQuery.Proofs.Lexemes.Pieces
import ScimQuery.Proofs.Decoding
import ScimQuery.Proofs.Precedence
import ScimQuery.Proofs.LongestNumber
import ScimQuery.Proofs.StringEnds
import ScimQuery.Proofs.AskedRuns
import ScimQuery.Proofs.Decimal.Exactness
