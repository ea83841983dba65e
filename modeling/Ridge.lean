import Ridge.Unify.Equations
import Ridge.Scc.ModuleDecls
import Ridge.Caps.Sound
import Ridge.Codegen.Simulation
import Ridge.Codegen.MatchFaithful
import Ridge.Migrate.Rollback
import Ridge.Migrate.DiffSound
import Ridge.Store.Keeper
import Ridge.Pool.Safe
import Ridge.Pool.Clean
import Ridge.Repo.AllOrNothing
import Ridge.Repo.Alike
import Ridge.Mem.Filters
import Ridge.Store.Serve
import Ridge.Actor.StartupSafe
import Ridge.Collections.IndexedMapRuns
import Ridge.Json.RoundTrip
import Ridge.Parser.Operators
import Ridge.Pg.Replies
import Ridge.Operators.Compute
import Ridge.Entity.Agree
import Ridge.Resolve.Visible
import Ridge.ToText.Right
import Ridge.Records.Right
import Ridge.Versions.Belong
import Ridge.Messages.Reached
import Ridge.Compare.Lawful
import Ridge.Applied.Once
import Ridge.Packages.Resolver
import Ridge.Resolve.DetectCycles
import Ridge.Loader.AtMostOnce
import Ridge.Reload.History
import Ridge.Reload.Sound
import Ridge.Loader.RecoveryRuns
import Ridge.Lexer.Nested
import Ridge.Lexer.OperatorBreak
import Ridge.Lexer.TripleAgree
import Ridge.Reload.FieldMigration
import Ridge.Mem.Equality
import Ridge.Query.Like
import Ridge.Query.Exists
import Ridge.Entity.DecimalLaws
import Ridge.Driver.Incremental
import Ridge.Query.Optimize
