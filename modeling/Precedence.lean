import Precedence.Text.Decimal
import Precedence.Scanner.Arguments
import Precedence.Lexer
import Precedence.TokenStream.PushBack
import Precedence.TokenStream.Background
import Precedence.Parser.Expression
import Precedence.Parser.Operators
import Precedence.Proofs.Parser.Input
import Precedence.Proofs.Parser.ReadyMade
import Precedence.Proofs.Parser.Phrase
import Precedence.Proofs.Parser.Soundness
import Precedence.Proofs.Parser.Completeness
import Precedence.Proofs.Parser.Uniqueness
import Precedence.Proofs.Scanner.Refill
import Precedence.Proofs.Scanner.ReadSchedule
import Precedence.Proofs.Scanner.LineEndings
import Precedence.Proofs.Scanner.Layout
import Precedence.Proofs.Scanner.Extent
import Precedence.Proofs.Scanner.Laps
import Precedence.Proofs.Scanner.Failure
import Precedence.Proofs.Scanner.Segmentation
import Precedence.Proofs.Scanner.Concatenation
import Precedence.Proofs.Lexer.Lookahead
import Precedence.Proofs.Scanner.ArgumentText
import Precedence.Proofs.Parser.OneList
import Precedence.Proofs.Scanner.Terminators
import Precedence.Proofs.Lexer.Lifetime
import Precedence.Proofs.Parser.Spans
import Precedence.Proofs.Scanner.Turns
import Precedence.Proofs.Parser.Steps
import Precedence.Proofs.TokenStream.Handover
import Precedence.Proofs.Parser.Resumption
import Precedence.Proofs.Parser.Progress
import Precedence.Proofs.Lexer.Rewinding
import Precedence.Proofs.Scanner.Tiling
import Precedence.Proofs.Scanner.EndOfInput
import Precedence.Proofs.Scanner.TabStops
import Precedence.Proofs.Parser.Obstacles
import Precedence.Proofs.Lexer.MoreInput
import Precedence.Proofs.Parser.PushedBack
import Precedence.Proofs.Tree.Brackets
import Precedence.Proofs.Tree.Labels
import Precedence.Proofs.Parser.SplitOperands
import Precedence.Proofs.Tree.Drawing
import Precedence.Proofs.Scanner.FormFeeds
import Precedence.Proofs.Scanner.BufferBounds
