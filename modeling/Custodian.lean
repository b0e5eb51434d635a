import Custodian.Filters.Annotations
import Custodian.Iam.Widening
import Custodian.Iam.NegatedOperators
import Custodian.Iam.PolicyGrammar
import Custodian.CloudLogging.EffectiveFilter
import Custodian.SecurityGroup.Revert
import Custodian.Filters.Metrics
import Custodian.Filters.OffHours
import Custodian.Aws.Arn
import Custodian.Cache.Policies
import Custodian.Policy.FormatTemplates
import Custodian.Tags.MarkForOp
import Custodian.Mu.Schedule
import Custodian.Mu.Publish
import Custodian.Statements.Reordered
import Custodian.Gcp.IamPolicy
import Custodian.Gcp.CachedResources
import Custodian.Azure.NetworkSecurityGroup
import Custodian.Left.ExecutionFilter
import Custodian.Left.TestPlan
import Custodian.Left.Traverse
import Custodian.Policy.MergedQueries
import Custodian.Resolver.Isolation
import Custodian.Stream.Incremental
import Custodian.Policy.DirectoryLoader
import Custodian.Org.Run
import Custodian.Azure.CachedResources
import Custodian.Mailer.SqsQueue
import Custodian.Sphere11.Locks
import Custodian.Azure.Tags
import Custodian.Azure.MarkedForOp
import Custodian.Network.GroupNames
import Custodian.Network.GroupSets
import Custodian.Network.Independence
import Custodian.SecurityGroup.Permission
import Custodian.Filters.Related
import Custodian.Mu.SqsSubscription
import Custodian.Tags.UniversalRetry
import Custodian.Tags.Rename
import Custodian.Tags.CopyUserTags
import Custodian.Mailer.LdapLookup
import Custodian.Mailer.SlackDelivery
import Custodian.Mailer.EmailDelivery
import Custodian.Aws.EncryptVolumes
import Custodian.Iam.MatchedKeys
import Custodian.Utils.GetRetry
import Custodian.Tags.SkipBadIds
import Custodian.Filters.TagEscapes
import Custodian.Filters.ValueMatch
import Custodian.Filters.ScheduleZone
import Custodian.Mu.PackageDeps
import Custodian.Filters.Reduce
import Custodian.Filters.NullOrder
import Custodian.Filters.TrimRuntime
import Custodian.Policy.TrailIds
import Custodian.Azure.PortRules
import Custodian.Azure.PortsRoundTrip
import Custodian.Gcp.AuditConfigs
import Custodian.Gcp.AuditRemovals
import Custodian.Tags.ResolveAndGroup
import Custodian.Tags.TagTrim
import Custodian.Output.ApiStats
import Custodian.Utils.ParseDuration
import Custodian.Filters.MetricWindow
import Custodian.Policy.ResourceLimit
import Custodian.Left.ModuleRefs
import Custodian.Policy.ConfigPoll
import Custodian.CloudLogging.BoundedDnf
import Custodian.CloudLogging.SinkOverlap
import Custodian.Policy.QueryRejection
import Custodian.SecurityGroup.MatchedRules
import Custodian.Filters.ListItems
import Custodian.Filters.NetworkLocation
import Custodian.Filters.MissingRelated
import Custodian.Azure.MetricFilter
import Custodian.Gcp.MetricQueries
import Custodian.S3.EncryptionStatement
import Custodian.Statements.ModifyPolicy
import Custodian.S3.SetStatements
import Custodian.S3.Notifications
import Custodian.Stream.DeltaCommits
import Custodian.Gcp.PropagateLabels
import Custodian.Gcp.DiscoveryConfigs
import Custodian.Gcp.MarkedLabels
import Custodian.Gcp.UserRoles
import Custodian.Utils.MergeDict
import Custodian.Utils.CompareDicts
import Custodian.CloudLogging.Spacing
import Custodian.Iam.ServiceUsage
import Custodian.Gcp.SearchQuery
import Custodian.Asg.PropagateTags
import Custodian.Asg.Resize
import Custodian.CloudLogging.Verdicts
import Custodian.Filters.ScheduledHours
import Custodian.Policy.PullRun
